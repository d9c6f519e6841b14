/-
  Parsers that read a prefix of their input, and when one reads exactly a grammar.

  A parser over tokens `τ` is a state transformer on the unread input that may fail.  A
  grammar is a relation `G a e`: the word `e` is an encoding of `a`.  `Exact p G` says that
  `p` answers `a` and leaves `r` precisely on the inputs `e ++ r` with `G a e`, so it is
  soundness, completeness and a statement about every truncated or trailing input at once.
  The rules below follow the parser's own structure (`pure`, bind, failure, a counted loop),
  so an exactness proof has the shape of the parser it is about.
  Independent of any format.
-/
import Mathlib.Control.Basic
import Mathlib.Data.List.Basic

namespace PrefixParser

variable {τ α β : Type}

/-- A parser: consumes a prefix of the tokens or fails. -/
abbrev Parser (τ α : Type) := StateT (List τ) Option α

/-- The next `n` tokens, or failure when fewer are left. -/
def takeN (n : ℕ) : Parser τ (List τ) := fun s =>
  if n > s.length then none else some (s.take n, s.drop n)

/-- `p`, `n` times over. -/
def times (p : Parser τ α) : ℕ → Parser τ (List α)
  | 0 => pure []
  | n + 1 => do
    let a ← p
    let as ← times p n
    pure (a :: as)

/-- `p` reads exactly the words of the grammar `G`, whatever follows them. -/
def Exact (p : Parser τ α) (G : α → List τ → Prop) : Prop :=
  ∀ s a r, p.run s = some (a, r) ↔ ∃ e, G a e ∧ s = e ++ r

/-- The grammar of an encoder `enc` that is faithful on `dom`. -/
def Enc (dom : α → Prop) (enc : α → List τ) (a : α) (e : List τ) : Prop :=
  dom a ∧ e = enc a

theorem Exact.congr {p : Parser τ α} {G G' : α → List τ → Prop} (h : Exact p G)
    (hG : ∀ a e, G a e ↔ G' a e) : Exact p G' := by
  intro s a r
  rw [h s a r]
  simp only [hG]

/-- The answer alone: what follows the word is not looked at. -/
theorem Exact.answer_iff {p : Parser τ α} {G : α → List τ → Prop} (h : Exact p G)
    (s : List τ) (a : α) :
    (p.run s).map Prod.fst = some a ↔ ∃ e r, G a e ∧ s = e ++ r := by
  constructor
  · intro hs
    obtain ⟨⟨a', r⟩, hrun, rfl⟩ := Option.map_eq_some_iff.mp hs
    obtain ⟨e, hG, rfl⟩ := (h s a' r).mp hrun
    exact ⟨e, r, hG, rfl⟩
  · rintro ⟨e, r, hG, rfl⟩
    rw [(h (e ++ r) a r).mpr ⟨e, hG, rfl⟩]
    rfl

/-- The answer of a parser of an encoder's words. -/
theorem Exact.answer_enc_iff {p : Parser τ α} {dom : α → Prop} {enc : α → List τ}
    (h : Exact p (Enc dom enc)) (s : List τ) (a : α) :
    (p.run s).map Prod.fst = some a ↔ dom a ∧ ∃ r, s = enc a ++ r := by
  rw [h.answer_iff]
  constructor
  · rintro ⟨_, r, ⟨ha, rfl⟩, rfl⟩
    exact ⟨ha, r, rfl⟩
  · rintro ⟨ha, r, rfl⟩
    exact ⟨_, r, ⟨ha, rfl⟩, rfl⟩

/-- No truncation of a word is read. -/
theorem Exact.truncated {p : Parser τ α} {G : α → List τ → Prop} (h : Exact p G) {a : α}
    {e : List τ} (hG : G a e) {k : ℕ} (hk : k < e.length) : p.run (e.take k) = none := by
  cases hrun : p.run (e.take k) with
  | none => rfl
  | some x =>
    -- what was read of the truncation would be read of the whole word, with more left
    obtain ⟨w, hw, htake⟩ := (h _ x.1 x.2).mp hrun
    have hlong : p.run e = some (x.1, x.2 ++ e.drop k) := by
      refine (h _ _ _).mpr ⟨w, hw, ?_⟩
      rw [← List.append_assoc, ← htake, List.take_append_drop]
    have hwhole : p.run e = some (a, []) := (h _ _ _).mpr ⟨e, hG, (List.append_nil e).symm⟩
    rw [hwhole, Option.some_inj, Prod.mk.injEq] at hlong
    have hdrop : e.drop k = [] := (List.append_eq_nil_iff.mp hlong.2.symm).2
    rw [List.drop_eq_nil_iff] at hdrop
    omega

/-! ## Reading word after word -/

/-- `as` is the longest list of words, one after the other, that the input starts with. -/
structure Longest (dom : α → Prop) (enc : α → List τ) (s : List τ) (as : List α) : Prop where
  mem : ∀ a ∈ as, dom a
  isPrefix : as.flatMap enc <+: s
  longest : ∀ bs : List α, (∀ b ∈ bs, dom b) → bs.flatMap enc <+: s → bs <+: as

section Longest

variable {p : Parser τ α} {dom : α → Prop} {enc : α → List τ} {s : List τ}

/-- Where nothing can be read the list ends. -/
theorem Exact.longest_nil (h : Exact p (Enc dom enc)) (hs : p.run s = none) :
    Longest dom enc s [] where
  mem := fun a ha => by cases ha
  isPrefix := List.nil_prefix
  longest := fun bs hbs hpre => by
    cases bs with
    | nil => exact List.prefix_rfl
    | cons b bs =>
      obtain ⟨r, rfl⟩ := hpre
      rw [List.flatMap_cons, List.append_assoc] at hs
      have hread := (h (enc b ++ (bs.flatMap enc ++ r)) b _).mpr
        ⟨enc b, ⟨hbs b List.mem_cons_self, rfl⟩, rfl⟩
      rw [hs] at hread
      cases hread

/-- A word that is read comes before the words of the rest. -/
theorem Exact.longest_cons (h : Exact p (Enc dom enc)) {a : α} {r : List τ}
    (hs : p.run s = some (a, r)) {as : List α} (hr : Longest dom enc r as) :
    Longest dom enc s (a :: as) := by
  obtain ⟨_, ⟨ha, rfl⟩, rfl⟩ := (h s a r).mp hs
  refine ⟨List.forall_mem_cons.mpr ⟨ha, hr.mem⟩, ?_, fun bs hbs hpre => ?_⟩
  · rw [List.flatMap_cons, List.prefix_append_right_inj]
    exact hr.isPrefix
  · cases bs with
    | nil => exact List.nil_prefix
    | cons b bs =>
      obtain ⟨hb, hrest⟩ := List.forall_mem_cons.mp hbs
      obtain ⟨t, ht⟩ := hpre
      rw [List.flatMap_cons, List.append_assoc] at ht
      -- the first word is read in one way only
      have hread := (h (enc a ++ r) b (bs.flatMap enc ++ t)).mpr ⟨enc b, ⟨hb, rfl⟩, ht.symm⟩
      rw [hs, Option.some_inj, Prod.mk.injEq] at hread
      obtain ⟨rfl, rfl⟩ := hread
      exact List.cons_prefix_cons.mpr ⟨rfl, hr.longest bs hrest (List.prefix_append _ _)⟩

theorem Longest.unique {as bs : List α} (ha : Longest dom enc s as) (hb : Longest dom enc s bs) :
    as = bs := by
  have hab := hb.longest as ha.mem ha.isPrefix
  have hba := ha.longest bs hb.mem hb.isPrefix
  exact hab.eq_of_length (Nat.le_antisymm hab.length_le hba.length_le)

end Longest

/-! ## Rules, one for each way a parser is built -/

theorem exact_pure (a : α) : Exact (pure a : Parser τ α) (fun b e => b = a ∧ e = []) := by
  intro s b r
  constructor
  · intro h
    obtain ⟨rfl, rfl⟩ := Prod.mk.inj (Option.some.inj h)
    exact ⟨[], ⟨rfl, rfl⟩, rfl⟩
  · rintro ⟨e, ⟨rfl, rfl⟩, rfl⟩
    rfl

theorem exact_failure : Exact (failure : Parser τ α) (fun _ _ => False) := by
  intro s a r
  constructor
  · intro h; cases h
  · rintro ⟨_, h, _⟩; exact h.elim

theorem exact_bind {p : Parser τ α} {f : α → Parser τ β} {G : α → List τ → Prop}
    {F : α → β → List τ → Prop} (hp : Exact p G) (hf : ∀ a, Exact (f a) (F a)) :
    Exact (p >>= f) (fun b e => ∃ a e₁ e₂, G a e₁ ∧ F a b e₂ ∧ e = e₁ ++ e₂) := by
  intro s b r
  rw [StateT.run_bind, Option.bind_eq_bind, Option.bind_eq_some_iff]
  constructor
  · rintro ⟨⟨a, t⟩, hrun, hrest⟩
    obtain ⟨e₁, hG, rfl⟩ := (hp s a t).mp hrun
    obtain ⟨e₂, hF, rfl⟩ := (hf a t b r).mp hrest
    exact ⟨e₁ ++ e₂, ⟨a, e₁, e₂, hG, hF, rfl⟩, (List.append_assoc _ _ _).symm⟩
  · rintro ⟨_, ⟨a, e₁, e₂, hG, hF, rfl⟩, rfl⟩
    refine ⟨(a, e₂ ++ r), (hp _ _ _).mpr ⟨e₁, hG, List.append_assoc _ _ _⟩, ?_⟩
    exact (hf a _ b r).mpr ⟨e₂, hF, rfl⟩

theorem exact_ite {c : Prop} [Decidable c] {p q : Parser τ α} {G F : α → List τ → Prop}
    (hp : c → Exact p G) (hq : ¬ c → Exact q F) :
    Exact (if c then p else q) (fun a e => (c ∧ G a e) ∨ (¬ c ∧ F a e)) := by
  by_cases hc : c
  · rw [if_pos hc]
    exact (hp hc).congr fun a e => by simp [hc]
  · rw [if_neg hc]
    exact (hq hc).congr fun a e => by simp [hc]

theorem exact_takeN (n : ℕ) : Exact (takeN n : Parser τ (List τ))
    (fun a e => a.length = n ∧ e = a) := by
  intro s a r
  have hrun : (takeN n : Parser τ (List τ)).run s =
      if n > s.length then none else some (s.take n, s.drop n) := rfl
  rw [hrun]
  constructor
  · intro h
    split at h
    · cases h
    · next hn =>
      obtain ⟨rfl, rfl⟩ := Prod.mk.inj (Option.some.inj h)
      refine ⟨_, ⟨?_, rfl⟩, (List.take_append_drop n s).symm⟩
      rw [List.length_take]
      omega
  · rintro ⟨_, ⟨rfl, rfl⟩, rfl⟩
    rw [if_neg (by simp), List.take_left, List.drop_left]

/-- A counted loop over one encoding reads the concatenation of that many encodings. -/
theorem exact_times {p : Parser τ α} {dom : α → Prop} {enc : α → List τ}
    (hp : Exact p (Enc dom enc)) (n : ℕ) :
    Exact (times p n) (Enc (fun as => as.length = n ∧ ∀ a ∈ as, dom a) (List.flatMap enc)) := by
  induction n with
  | zero =>
    refine (exact_pure []).congr fun as e => ?_
    constructor
    · rintro ⟨rfl, rfl⟩
      exact ⟨⟨rfl, by simp⟩, rfl⟩
    · rintro ⟨⟨hlen, _⟩, rfl⟩
      obtain rfl := List.length_eq_zero_iff.mp hlen
      exact ⟨rfl, rfl⟩
  | succ n ih =>
    refine (exact_bind hp fun a => exact_bind ih fun as => exact_pure (a :: as)).congr
      fun as e => ?_
    constructor
    · rintro ⟨a, _, _, ⟨ha, rfl⟩, ⟨as, _, _, ⟨⟨hlen, has⟩, rfl⟩, ⟨rfl, rfl⟩, rfl⟩, rfl⟩
      refine ⟨⟨by rw [List.length_cons, hlen], ?_⟩, by simp [List.flatMap_cons]⟩
      exact List.forall_mem_cons.mpr ⟨ha, has⟩
    · rintro ⟨⟨hlen, has⟩, rfl⟩
      obtain ⟨a, as, rfl⟩ := List.exists_cons_of_length_eq_add_one hlen
      obtain ⟨ha, has⟩ := List.forall_mem_cons.mp has
      refine ⟨a, enc a, as.flatMap enc, ⟨ha, rfl⟩, ?_, by simp [List.flatMap_cons]⟩
      exact ⟨as, _, [], ⟨⟨Nat.succ.inj hlen, has⟩, rfl⟩, ⟨rfl, rfl⟩, by simp⟩

end PrefixParser
