/-
  Coroutines that go on listening.

  `Lasting` says of a set of points that a coroutine at one of them only listens and sends,
  and leaves the set neither by its script nor by an error, but for a failed operation that
  listens.  `Serves` is the invariant of such a coroutine in a loop that is not being closed;
  it is kept by every step but that failure (`Serves.step`), whatever the other coroutines
  do.
-/
import Netsrv.Lib.EventLoop

namespace EventLoop

variable {P : Type} {S : Script P} {L : P → Prop}

/-- A coroutine at one of these points stays at them while it can listen. -/
structure Lasting (S : Script P) (L : P → Prop) : Prop where
  kind : ∀ p, L p → S.kind p = .listen ∨ S.kind p = .send
  next : ∀ p, L p → ∀ x ∈ S.next p, L x.1
  open_next : ∀ p, L p → S.accepts p = false → ∀ x ∈ S.next p, x.2 = false
  closes : ∀ p, L p → S.kind p = .send → S.closes p = false
  throws : ∀ p, L p → S.throws p = false

namespace Loop

variable {l l' : Loop P} {a : Act P} {i j : ℕ}

/-- Coroutine `i` listens, sends or is about to go on, and no closing is on its way. -/
structure Serves (S : Script P) (L : P → Prop) (i : ℕ) (l : Loop P) : Prop where
  noClosing : .closeAll ∉ l.queue
  coroutine : ∃ c, l.cos[i]? = some c ∧ L c.point ∧ c.closed = false ∧ c.status ≠ .finished ∧
    (.resume i false ∈ l.queue → S.kind c.point = .send)

/-- An operation that listens fails. -/
def listenFails (S : Script P) (l : Loop P) : Act P → Bool
  | .fail i => (l.cos[i]?).any fun c => decide (S.kind c.point = .listen)
  | _ => false

/-- A step of the others: what is new in the queue is theirs. -/
theorem Serves.others (h : Serves S L i l) {cos : List (Coroutine P)} {queue : List Item}
    (hcos : cos[i]? = l.cos[i]?)
    (hqueue : ∀ x ∈ queue, x ∈ l.queue ∨ ∃ j, x.index? = some j ∧ j ≠ i) :
    Serves S L i { cos, queue } := by
  obtain ⟨hnot, c, hc, hL, hopen, hlive, hfailed⟩ := h
  refine ⟨fun hclosing => ?_, c, hcos.trans hc, hL, hopen, hlive, fun hmem => ?_⟩
  · rcases hqueue _ hclosing with hold | ⟨j, hj, -⟩
    · exact hnot hold
    · cases hj
  · rcases hqueue _ hmem with hold | ⟨j, hj, hne⟩
    · exact hfailed hold
    · exact absurd (Option.some.inj hj).symm hne

/-- Coroutine `j ≠ i` gets to its next operation. -/
theorem Serves.wait (h : Serves S L i l) (hji : j ≠ i) (c : Coroutine P) :
    Serves S L i (l.wait S j c) := by
  unfold Loop.wait
  split
  · refine h.others (List.getElem?_set_ne hji) fun x hx => ?_
    rcases List.mem_append.mp hx with hx | hx
    · exact Or.inl hx
    · rw [List.mem_singleton.mp hx]
      exact Or.inr ⟨j, rfl, hji⟩
  · exact h.others (List.getElem?_set_ne hji) fun x hx => Or.inl hx

/-- An operation of coroutine `j` completes; if it is `i`'s, it sent or did not fail. -/
theorem Serves.complete (h : Serves S L i l) {ok : Bool} {kinds : List Kind}
    (hown : ∀ c, l.cos[i]? = some c → S.kind c.point ∈ kinds → j = i → ok = true ∨
      S.kind c.point = .send)
    (hstep : l.complete S j ok kinds = some l') : Serves S L i l' := by
  obtain ⟨c', hc', -, hkind, rfl⟩ := complete_eq_some hstep
  by_cases hji : j = i
  · subst hji
    obtain ⟨hnot, c, hc, hL, hopen, hlive, hfailed⟩ := h
    obtain rfl : c = c' := Option.some.inj (hc.symm.trans hc')
    refine ⟨by simpa using hnot, { c with status := .queued }, Slots.set_self hc, hL, hopen, nofun,
      fun hmem => ?_⟩
    rcases List.mem_append.mp hmem with hold | hnew
    · exact hfailed hold
    · rcases hown c hc hkind rfl with rfl | hsend
      · cases List.mem_singleton.mp hnew
      · exact hsend
  · refine h.others (List.getElem?_set_ne hji) fun x hx => ?_
    rcases List.mem_append.mp hx with hx | hx
    · exact Or.inl hx
    · rw [List.mem_singleton.mp hx]
      exact Or.inr ⟨j, rfl, hji⟩

/-- Coroutine `i` itself gets to its next operation. -/
theorem serves_wait {c : Coroutine P} {c₀ : Coroutine P} (hc : l.cos[i]? = some c₀)
    (hnot : .closeAll ∉ l.queue) (hL : L c.point) (hopen : c.closed = false)
    (hfailed : .resume i false ∉ l.queue) : Serves S L i (l.wait S i c) := by
  rw [Loop.wait, if_neg (by simp [hopen])]
  exact ⟨hnot, _, Slots.set_self hc, hL, hopen, nofun, fun hmem => absurd hmem hfailed⟩

/-- A spawn takes a new number. -/
theorem Serves.spawn (h : Serves S L i l) : Serves S L i (l.spawn S) := by
  obtain ⟨c, hc, -⟩ := h.coroutine
  have hlt := (List.getElem?_eq_some_iff.mp hc).1
  refine h.others (List.getElem?_append_left hlt) fun x hx => ?_
  rcases List.mem_append.mp hx with hx | hx
  · exact Or.inl hx
  · rw [List.mem_singleton.mp hx]
    exact Or.inr ⟨l.cos.length, rfl, Nat.ne_of_gt hlt⟩

/-- Taking a handler off the queue. -/
theorem Serves.pop (h : Serves S L i l) {x : Item} {q : List Item} (hq : l.queue = x :: q) :
    Serves S L i { l with queue := q } :=
  h.others rfl fun _ hy => Or.inl (hq ▸ List.mem_cons_of_mem x hy)

variable [DecidableEq P]

/-- Another coroutine runs on after its operation. -/
theorem Serves.resumed_other (h : Serves S L i l) (hji : j ≠ i) {ok : Bool} {c : Coroutine P}
    {next : Option (P × Bool)} (hstep : l.resumed S j c ok next = some l') : Serves S L i l' := by
  cases next with
  | none =>
    rw [Loop.resumed] at hstep
    split at hstep
    · obtain rfl := Option.some.inj hstep
      exact h.others (List.getElem?_set_ne hji) fun x hx => Or.inl hx
    · cases hstep
  | some x =>
    rw [Loop.resumed] at hstep
    split at hstep
    · cases hstep
    · split at hstep
      · obtain rfl := Option.some.inj hstep
        split
        · exact h.wait hji _
        · exact h.spawn.wait hji _
      · obtain rfl := Option.some.inj hstep
        exact h.wait hji _

/-- The coroutine itself runs on: it has not failed to listen, so it goes on to a point of
    the set. -/
theorem Serves.resumed_own (hS : Lasting S L) (h : Serves S L i l) {ok : Bool} {c : Coroutine P}
    {next : Option (P × Bool)} (hc : l.cos[i]? = some c) (hnone : Item.resume i false ∉ l.queue)
    (hkind : ok = false → S.kind c.point = .send)
    (hstep : l.resumed S i c ok next = some l') : Serves S L i l' := by
  obtain ⟨c', hc', hL, hopen, -⟩ := h.coroutine
  obtain rfl : c = c' := Option.some.inj (hc.symm.trans hc')
  cases next with
  | none =>
    have hguard : ¬ (ok = false ∧ (S.kind c.point = .listen ∨ S.kind c.point = .read)) := by
      rintro ⟨hok, hlisten⟩
      rw [hkind hok] at hlisten
      rcases hlisten with hlisten | hlisten <;> cases hlisten
    rw [Loop.resumed, hS.throws c.point hL, if_neg (by simpa using hguard)] at hstep
    cases hstep
  | some x =>
    rw [Loop.resumed] at hstep
    split at hstep
    · cases hstep
    · next hx =>
      have hmem : x ∈ S.next c.point := by
        by_contra hmem
        exact hx (Or.inl hmem)
      have hLx := hS.next c.point hL x hmem
      split at hstep
      · obtain rfl := Option.some.inj hstep
        by_cases hrefused : x.2 = true
        · rw [if_pos hrefused]
          exact serves_wait hc h.noClosing hLx hopen hnone
        · rw [if_neg hrefused]
          refine serves_wait (Slots.append_left hc _) h.spawn.noClosing hLx hopen ?_
          rw [Loop.spawn, List.mem_append]
          rintro (hold | hnew)
          · exact hnone hold
          · cases List.mem_singleton.mp hnew
      · next haccepts =>
        obtain rfl := Option.some.inj hstep
        refine serves_wait hc h.noClosing hLx ?_ hnone
        have hstays := hS.open_next c.point hL (eq_false_of_ne_true haccepts) x hmem
        cases ok with
        | true => simp [hopen, hstays]
        | false => simp [hopen, hstays, hS.closes c.point hL (hkind rfl)]

/-- A coroutine whose result is next in the queue runs on. -/
theorem Serves.resumed (hS : Lasting S L) (htidy : Tidy S l) (h : Serves S L i l) {ok : Bool}
    {q : List Item} {c : Coroutine P} {next : Option (P × Bool)}
    (hq : l.queue = .resume j ok :: q) (hc : l.cos[j]? = some c)
    (hstep : Loop.resumed S { l with queue := q } j c ok next = some l') : Serves S L i l' := by
  by_cases hji : j = i
  · subst hji
    -- its result is in the queue once
    have hnone : Item.resume j false ∉ q := fun hmem =>
      (htidy.pop hq rfl).free j rfl (List.mem_filterMap.mpr ⟨_, hmem, rfl⟩)
    refine (h.pop hq).resumed_own hS hc hnone ?_ hstep
    rintro rfl
    obtain ⟨c', hc', -, -, -, hfailed⟩ := h.coroutine
    obtain rfl : c = c' := Option.some.inj (hc.symm.trans hc')
    exact hfailed (hq ▸ List.mem_cons_self)
  · exact (h.pop hq).resumed_other hji hstep

/-- **Nothing but a failure to listen ends it.** -/
theorem Serves.step (hS : Lasting S L) (htidy : Tidy S l) (h : Serves S L i l)
    (hstep : l.step S a = some l') (hok : l.listenFails S a = false) : Serves S L i l' := by
  have hkind {c : Coroutine P} (hc : l.cos[i]? = some c) :
      S.kind c.point = .listen ∨ S.kind c.point = .send := by
    obtain ⟨c', hc', hL, -⟩ := h.coroutine
    obtain rfl := Option.some.inj (hc.symm.trans hc')
    exact hS.kind c.point hL
  cases a with
  | begin =>
    rw [Loop.step] at hstep
    split at hstep
    · next j q hq =>
      obtain ⟨c, hc, rfl⟩ := Option.map_eq_some_iff.mp hstep
      have hpop := h.pop hq
      by_cases hji : j = i
      · subst hji
        obtain ⟨c', hc', hL, hopen, -⟩ := h.coroutine
        obtain rfl : c = c' := Option.some.inj (hc.symm.trans hc')
        refine serves_wait hc hpop.noClosing hL hopen fun hmem => ?_
        exact (htidy.pop hq rfl).free j rfl (List.mem_filterMap.mpr ⟨_, hmem, rfl⟩)
      · exact hpop.wait hji c
    · cases hstep
  | resume next =>
    rw [Loop.step] at hstep
    split at hstep
    · next j ok q hq =>
      obtain ⟨c, hc, hresumed⟩ := Option.bind_eq_some_iff.mp hstep
      exact h.resumed hS htidy hq hc hresumed
    · cases hstep
  | close order =>
    rw [Loop.step] at hstep
    split at hstep
    · next q hq => exact absurd (hq ▸ List.mem_cons_self) h.noClosing
    · cases hstep
  | idle j =>
    refine h.complete (fun c hc hread _ => ?_) hstep
    rcases hkind hc with hlisten | hsend
    · rw [hlisten] at hread
      cases List.mem_singleton.mp hread
    · exact Or.inr hsend
  | arrive j => exact h.complete (fun c hc _ _ => Or.inl rfl) hstep
  | fail j =>
    refine h.complete (fun c hc _ hji => ?_) hstep
    rcases hkind hc with hlisten | hsend
    · subst hji
      rw [listenFails, hc] at hok
      simp [hlisten] at hok
    · exact Or.inr hsend
  | answer j => exact h.complete (fun c hc _ _ => Or.inl rfl) hstep

end Loop

end EventLoop
