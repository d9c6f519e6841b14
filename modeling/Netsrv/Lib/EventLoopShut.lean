/-
  Loops in which the closing of all sockets is final.

  The closing acts once, on the sockets that are open when its turn comes.  It is too early
  for a coroutine that listens and has not opened its socket yet (`early`); and a coroutine
  that accepts can have one accept behind it, completed when its socket was still open, of
  which it makes another coroutine (`late`).  Otherwise the closing leaves nothing open
  (`shut_of_close`), and nothing is opened any more (`Shut.step`).
-/
import Netsrv.Lib.EventLoop

namespace EventLoop

variable {P : Type} {S : Script P} {l l' : Loop P} {a : Act P}

/-- The socket of a coroutine is open: one that listens opens it when it begins. -/
def Coroutine.isOpen (S : Script P) (c : Coroutine P) : Bool :=
  !c.closed && !decide (c.status = .fresh ∧ S.kind c.point = .listen)

namespace Loop

/-- A coroutine that listens has not begun. -/
def early (S : Script P) (l : Loop P) : Bool :=
  l.cos.any fun c => decide (c.status = .fresh ∧ S.kind c.point = .listen)

/-- What was accepted becomes a coroutine, though the socket that accepted it is closed. -/
def late (S : Script P) (l : Loop P) : Act P → Bool
  | .resume (some (_, false)) =>
    match l.queue with
    | .resume i true :: _ => (l.cos[i]?).any fun c => S.accepts c.point && c.closed
    | _ => false
  | _ => false

/-- All sockets are closed. -/
def Shut (l : Loop P) : Prop := ∀ (i : ℕ) (c : Coroutine P), l.cos[i]? = some c → c.closed = true

theorem Shut.isOpen (h : Shut l) (S : Script P) {c : Coroutine P} (hc : c ∈ l.cos) :
    c.isOpen S = false := by
  obtain ⟨i, hi⟩ := List.getElem?_of_mem hc
  rw [Coroutine.isOpen, h i c hi]
  rfl

/-- The coroutine in hand goes to its next wait. -/
theorem Shut.wait (h : Shut l) (queue : List Item) {i : ℕ} {c : Coroutine P}
    (hc : c.closed = true) : Shut (Loop.wait S { l with queue } i c) := by
  intro j c' hc'
  rcases getElem?_wait hc' with ⟨-, -, hclosed, -⟩ | ⟨-, hold⟩
  · rw [hclosed, hc]
  · exact h j c' hold

theorem Shut.set (h : Shut l) (queue : List Item) {i : ℕ} {c : Coroutine P}
    (hc : c.closed = true) : Shut { cos := l.cos.set i c, queue } := by
  intro j c' hc'
  rcases Slots.set_cases hc' with ⟨-, rfl⟩ | ⟨-, hold⟩
  · exact hc
  · exact h j c' hold

variable [DecidableEq P]

/-- A closing that is not too early leaves nothing open. -/
theorem shut_of_close {order : List ℕ} (h : l.early S = false)
    (hstep : l.step S (.close order) = some l') : Shut l' := by
  rw [step] at hstep
  split at hstep
  · split at hstep
    · obtain rfl := Option.some.inj hstep
      intro i c' hc'
      rw [List.getElem?_map] at hc'
      obtain ⟨c, hc, rfl⟩ := Option.map_eq_some_iff.mp hc'
      refine Coroutine.closed_close S fun hfresh => ?_
      exact List.any_eq_false.mp h c (List.mem_of_getElem? hc) (decide_eq_true hfresh)
    · cases hstep
  · cases hstep

/-- **Closed for good.**  Whatever the thread, its peers and the others do, no socket is opened
    once all are closed, unless an accept comes late. -/
theorem Shut.step (h : Shut l) (hstep : l.step S a = some l') (hlate : l.late S a = false) :
    Shut l' := by
  cases step_cases hstep with
  | begins _ hc => exact h.wait _ (h _ _ hc)
  | ends _ _ => exact h.set _ rfl
  | @accepts i q c x hq hc _ haccepts =>
    obtain ⟨p, refused⟩ := x
    have hclosed : c.closed = true := h i c hc
    cases refused with
    | true => exact h.wait q hclosed
    | false =>
      rw [late, hq] at hlate
      simp only [hc, Option.any_some, haccepts, hclosed, Bool.and_self] at hlate
      cases hlate
  | goes _ hc _ => exact h.wait _ (by simp only [h _ _ hc, Bool.true_or])
  | closes _ _ =>
    intro j c' hc'
    rw [List.getElem?_map] at hc'
    obtain ⟨c, hc, rfl⟩ := Option.map_eq_some_iff.mp hc'
    by_cases hfresh : c.status = .fresh ∧ S.kind c.point = .listen
    · rw [Coroutine.close, if_pos hfresh]
      exact h j c hc
    · exact Coroutine.closed_close S hfresh
  | @completes _ i c _ hc _ _ => exact h.set _ (h i c hc)

end Loop

end EventLoop
