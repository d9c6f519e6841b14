/-
  Who held what: the history of a keyed store whose entries are put and taken.

  Each put gets a number, the count of the puts before it, so that two puts of one key are
  told apart.  `holds h key` is the number of the put a key stands for after the history
  `h`.  A history is `Valid` when a take consumes what its key stands for and no taker
  takes twice; then no put is consumed twice either, so there are never more takes of a key
  than puts of it.  Independent of what is stored, and of entries that expire: a store may
  hold less than its history says.
-/
import Mathlib.Data.List.Perm.Subperm
import Mathlib.Data.List.Nodup

namespace Custody

variable {K α κ : Type}

inductive Event (K α κ : Type) where
  | put (key : K) (a : α)
  | took (taker : κ) (n : ℕ)

/-- The newest event comes first. -/
abbrev History (K α κ : Type) := List (Event K α κ)

namespace History

/-- How many puts there were. -/
def count : History K α κ → ℕ
  | [] => 0
  | .put _ _ :: h => count h + 1
  | .took _ _ :: h => count h

/-- The put number `n`. -/
def issue : History K α κ → ℕ → Option (K × α)
  | [], _ => none
  | .put key a :: h, n => if n = count h then some (key, a) else issue h n
  | .took _ _ :: h, n => issue h n

/-- The number of the put that a key stands for. -/
def holds [DecidableEq K] : History K α κ → K → Option ℕ
  | [], _ => none
  | .put k _ :: h, key => if key = k then some (count h) else holds h key
  | .took _ n :: h, key => if holds h key = some n then none else holds h key

def takers (h : History K α κ) : List κ :=
  h.filterMap fun
    | .took c _ => some c
    | .put _ _ => none

/-- The numbers of the puts that were taken. -/
def taken (h : History K α κ) : List ℕ :=
  h.filterMap fun
    | .took _ n => some n
    | .put _ _ => none

/-- The numbers of the puts of a key. -/
def puts [DecidableEq K] : History K α κ → K → List ℕ
  | [], _ => []
  | .put k _ :: h, key => if key = k then count h :: puts h key else puts h key
  | .took _ _ :: h, key => puts h key

/-- A take consumes what its key stands for, and each taker takes once. -/
inductive Valid [DecidableEq K] : History K α κ → Prop
  | nil : Valid []
  | put {h : History K α κ} (key : K) (a : α) : Valid h → Valid (.put key a :: h)
  | took {h : History K α κ} {c : κ} {key : K} {n : ℕ} : Valid h → holds h key = some n →
      c ∉ takers h → Valid (.took c n :: h)

/-! ## Numbers -/

theorem issue_lt {h : History K α κ} {n : ℕ} {x : K × α} (hn : issue h n = some x) :
    n < count h := by
  induction h with
  | nil => cases hn
  | cons e h ih =>
    cases e with
    | put key a =>
      rw [issue] at hn
      split at hn
      · next heq => rw [heq, count]; exact Nat.lt_succ_self _
      · exact Nat.lt_succ_of_lt (ih hn)
    | took c m => exact ih hn

/-- A later event does not change what a number stands for. -/
theorem issue_cons {h : History K α κ} {n : ℕ} {x : K × α} (hn : issue h n = some x)
    (e : Event K α κ) : issue (e :: h) n = some x := by
  cases e with
  | put key a =>
    have hlt := issue_lt hn
    rw [issue, if_neg (by omega), hn]
  | took c m => exact hn

theorem issue_of_suffix {h h' : History K α κ} (hsub : h <:+ h') {n : ℕ} {x : K × α}
    (hn : issue h n = some x) : issue h' n = some x := by
  obtain ⟨new, rfl⟩ := hsub
  induction new with
  | nil => exact hn
  | cons e new ih => exact issue_cons ih e

theorem issue_put (h : History K α κ) (key : K) (a : α) :
    issue (.put key a :: h) (count h) = some (key, a) := by
  rw [issue, if_pos rfl]

theorem mem_taken_of_mem {h : History K α κ} {c : κ} {n : ℕ} (hc : .took c n ∈ h) :
    n ∈ taken h :=
  List.mem_filterMap.mpr ⟨_, hc, rfl⟩

variable [DecidableEq K]

theorem mem_puts_iff {h : History K α κ} {key : K} {n : ℕ} :
    n ∈ puts h key ↔ ∃ a, issue h n = some (key, a) := by
  induction h with
  | nil => simp [puts, issue]
  | cons e h ih =>
    cases e with
    | put k a =>
      have hold : n ∈ puts h key → n ≠ count h := by
        intro hmem heq
        obtain ⟨b, hb⟩ := ih.mp hmem
        have := issue_lt hb
        omega
      rw [puts, issue]
      by_cases hn : n = count h
      · rw [if_pos hn]
        by_cases hk : key = k
        · simp [hk, hn]
        · have hnot : n ∉ puts h key := fun hmem => hold hmem hn
          simp only [if_neg hk, Option.some_inj, Prod.mk.injEq, hnot, false_iff]
          rintro ⟨b, hb, -⟩
          exact hk hb.symm
      · rw [if_neg hn, ← ih]
        by_cases hk : key = k
        · rw [if_pos hk, List.mem_cons]
          exact ⟨fun hor => hor.resolve_left hn, Or.inr⟩
        · rw [if_neg hk]
    | took c m => exact ih

/-- What a key stands for is a put of that key. -/
theorem issue_of_holds {h : History K α κ} {key : K} {n : ℕ} (hn : holds h key = some n) :
    ∃ a, issue h n = some (key, a) := by
  induction h with
  | nil => cases hn
  | cons e h ih =>
    cases e with
    | put k a =>
      rw [holds] at hn
      by_cases hk : key = k
      · rw [if_pos hk] at hn
        obtain rfl := Option.some.inj hn
        exact ⟨a, by rw [issue_put, hk]⟩
      · rw [if_neg hk] at hn
        obtain ⟨b, hb⟩ := ih hn
        exact ⟨b, issue_cons hb _⟩
    | took c m =>
      rw [holds] at hn
      split at hn
      · cases hn
      · exact ih hn

/-- A key stands for the last put of it until that is taken. -/
theorem holds_of_last {h : History K α κ} {key : K} {n : ℕ} {a : α}
    (hn : issue h n = some (key, a)) (hlast : ∀ m ∈ puts h key, m ≤ n) (hleft : n ∉ taken h) :
    holds h key = some n := by
  induction h with
  | nil => cases hn
  | cons e h ih =>
    cases e with
    | put k b =>
      rw [issue] at hn
      rw [puts] at hlast
      rw [holds]
      by_cases hcount : n = count h
      · rw [if_pos hcount] at hn
        obtain ⟨rfl, -⟩ := Prod.mk.inj (Option.some.inj hn)
        rw [if_pos rfl, hcount]
      · rw [if_neg hcount] at hn
        by_cases hk : key = k
        · rw [if_pos hk] at hlast
          exact absurd (hlast _ List.mem_cons_self) (Nat.not_le.mpr (issue_lt hn))
        · rw [if_neg hk] at hlast ⊢
          exact ih hn hlast hleft
    | took c m =>
      have hm : n ≠ m := fun heq => hleft (heq ▸ List.mem_cons_self)
      have hold := ih hn hlast fun hmem => hleft (List.mem_cons_of_mem _ hmem)
      rw [holds, if_neg fun heq => hm (Option.some.inj (hold.symm.trans heq)), hold]

/-! ## Valid histories -/

theorem Valid.issue_of_taken {h : History K α κ} (hv : Valid h) {n : ℕ} (hn : n ∈ taken h) :
    ∃ x, issue h n = some x := by
  induction hv with
  | nil => cases hn
  | put key a _ ih =>
    obtain ⟨x, hx⟩ := ih hn
    exact ⟨x, issue_cons hx _⟩
  | @took h c key m hv hholds _ ih =>
    rcases List.mem_cons.mp hn with rfl | hn
    · obtain ⟨a, ha⟩ := issue_of_holds hholds
      exact ⟨_, issue_cons ha _⟩
    · obtain ⟨x, hx⟩ := ih hn
      exact ⟨x, issue_cons hx _⟩

/-- What a key stands for has not been taken. -/
theorem Valid.not_taken {h : History K α κ} (hv : Valid h) {key : K} {n : ℕ}
    (hn : holds h key = some n) : n ∉ taken h := by
  induction hv generalizing key n with
  | nil => cases hn
  | @put h k a hv ih =>
    rw [holds] at hn
    by_cases hk : key = k
    · rw [if_pos hk] at hn
      obtain rfl := Option.some.inj hn
      intro htaken
      obtain ⟨x, hx⟩ := hv.issue_of_taken htaken
      exact absurd (issue_lt hx) (Nat.lt_irrefl _)
    · rw [if_neg hk] at hn
      exact ih hn
  | @took h c k m hv hholds _ ih =>
    rw [holds] at hn
    split at hn
    · cases hn
    · next hne =>
      intro htaken
      rcases List.mem_cons.mp htaken with rfl | htaken
      · exact hne hn
      · exact ih hn htaken

/-- What a key stands for is its last put, which was not taken. -/
theorem Valid.last_of_holds {h : History K α κ} (hv : Valid h) {key : K} {n : ℕ}
    (hn : holds h key = some n) : (∀ m ∈ puts h key, m ≤ n) ∧ n ∉ taken h := by
  refine ⟨?_, hv.not_taken hn⟩
  clear hv
  induction h with
  | nil => cases hn
  | cons e h ih =>
    cases e with
    | put k a =>
      rw [holds] at hn
      rw [puts]
      by_cases hk : key = k
      · rw [if_pos hk] at hn ⊢
        obtain rfl := Option.some.inj hn
        intro m hm
        rcases List.mem_cons.mp hm with rfl | hm
        · exact Nat.le_refl _
        · obtain ⟨b, hb⟩ := mem_puts_iff.mp hm
          exact Nat.le_of_lt (issue_lt hb)
      · rw [if_neg hk] at hn ⊢
        exact ih hn
    | took c m =>
      rw [holds] at hn
      split at hn
      · cases hn
      · exact ih hn

/-- Two takes of one put are one take. -/
theorem Valid.taker_unique {h : History K α κ} (hv : Valid h) {c c' : κ} {n : ℕ}
    (hc : .took c n ∈ h) (hc' : .took c' n ∈ h) : c = c' := by
  induction hv with
  | nil => cases hc
  | put key a _ ih =>
    exact ih ((List.mem_cons.mp hc).resolve_left (by simp))
      ((List.mem_cons.mp hc').resolve_left (by simp))
  | took hv hholds _ ih =>
    rcases List.mem_cons.mp hc with h1 | h1 <;> rcases List.mem_cons.mp hc' with h2 | h2
    · cases h1; cases h2; rfl
    · cases h1; exact absurd (mem_taken_of_mem h2) (hv.not_taken hholds)
    · cases h2; exact absurd (mem_taken_of_mem h1) (hv.not_taken hholds)
    · exact ih h1 h2

/-- Those who took, each by a taker of its own, can be matched with different puts. -/
theorem Valid.exists_numbers {h : History K α κ} (hv : Valid h) {β : Type} {taker : β → κ}
    {R : β → ℕ → Prop} (hR : ∀ x n, R x n → .took (taker x) n ∈ h) {xs : List β}
    (hxs : (xs.map taker).Nodup) (htook : ∀ x ∈ xs, ∃ n, R x n) :
    ∃ ns, List.Forall₂ R xs ns ∧ ns.Nodup := by
  induction xs with
  | nil => exact ⟨[], .nil, List.nodup_nil⟩
  | cons x xs ih =>
    rw [List.map_cons, List.nodup_cons] at hxs
    obtain ⟨n, hn⟩ := htook x List.mem_cons_self
    obtain ⟨ns, hall, hnodup⟩ := ih hxs.2 fun y hy => htook y (List.mem_cons_of_mem x hy)
    refine ⟨n :: ns, .cons hn hall, List.nodup_cons.mpr ⟨fun hmem => ?_, hnodup⟩⟩
    -- a second one with the number `n` would be the taker of `x`
    obtain ⟨y, hy, hyn⟩ : ∃ y ∈ xs, R y n := by
      obtain ⟨i, hi, rfl⟩ := List.getElem_of_mem hmem
      have hi' : i < xs.length := hall.length_eq ▸ hi
      exact ⟨xs[i], List.getElem_mem hi', hall.get hi' hi⟩
    have hsame := hv.taker_unique (hR x n hn) (hR y n hyn)
    exact hxs.1 (hsame ▸ List.mem_map_of_mem hy)

/-- There are no more takers of a key than puts of it. -/
theorem Valid.length_le_puts {h : History K α κ} (hv : Valid h) {key : K} {cs : List κ}
    (hcs : cs.Nodup)
    (htook : ∀ c ∈ cs, ∃ n, .took c n ∈ h ∧ ∃ a, issue h n = some (key, a)) :
    cs.length ≤ (puts h key).length := by
  obtain ⟨ns, hall, hnodup⟩ := hv.exists_numbers (fun c n (hR : .took (id c) n ∈ h ∧ _) => hR.1)
    (by rwa [List.map_id]) htook
  have hsub : ns ⊆ puts h key := by
    intro n hn
    obtain ⟨i, hi, rfl⟩ := List.getElem_of_mem hn
    have hi' : i < cs.length := hall.length_eq ▸ hi
    exact mem_puts_iff.mpr (hall.get hi' hi).2
  rw [hall.length_eq]
  exact (List.subperm_of_subset hnodup hsub).length_le

end History

end Custody
