/-
  Data behind a lock that is held by one thread or shared by several.

  A thread calls an operation, waits for the lock, and works on the data one access at a
  time; any number of threads do so at once, and the clock may advance between any two
  accesses.  `Code` is what the operations do: those that share the lock change nothing.

  Nothing here is atomic but a single access, and the lock itself.  `sound_of_reachable` is
  that the operations are, all the same: in the order in which they return they are what
  each of them does alone, one after the other.  `exists_return` is that the lock is never
  lost: from every reachable state any call can be brought to its end.
-/
import Netsrv.Lib.Machine
import Netsrv.Lib.Slots

namespace SharedLock

/-- The operations `ω` on data `δ`: how a thread enters its section, given a choice `χ`, and
    its accesses, each at one reading of the clock, until there is an answer `α`. -/
structure Code (ω χ ℓ δ α : Type) where
  exclusive : ω → Bool
  enter : ω → δ → χ → Option ℓ
  access : ω → ℓ → δ → ℕ → (ℓ ⊕ α) × δ
  shares : ∀ op l d t, exclusive op = false → (access op l d t).2 = d

inductive Thread (ω ℓ : Type) where
  | idle
  | waiting (op : ω)
  /-- In its section since `start`. -/
  | inside (op : ω) (start : ℕ) (l : ℓ)
  deriving DecidableEq

/-- An operation that returned, with the readings at which it got the lock and gave it back. -/
structure Done (ω α : Type) where
  op : ω
  start : ℕ
  stop : ℕ
  answer : α
  deriving DecidableEq

/-- `log` are the operations that returned, the newest first. -/
structure State (ω ℓ δ α : Type) where
  now : ℕ := 0
  data : δ
  threads : List (Thread ω ℓ)
  readers : ℕ := 0
  writer : Bool := false
  log : List (Done ω α) := []

/-- `n` threads that have nothing to do yet. -/
def initial {ω ℓ δ α : Type} (n : ℕ) (data : δ) : State ω ℓ δ α where
  data := data
  threads := List.replicate n .idle

inductive Label (ω χ : Type) where
  | tick (d : ℕ)
  | call (k : ℕ) (op : ω)
  | acquire (k : ℕ) (choice : χ)
  | access (k : ℕ)

variable {ω χ ℓ δ α : Type} (code : Code ω χ ℓ δ α)

/-- The lock can be had: by one that shares it when no writer has it, by a writer when
    nobody has. -/
def State.free (s : State ω ℓ δ α) (op : ω) : Bool :=
  !s.writer && (!code.exclusive op || s.readers == 0)

/-- Thread `k` gets the lock. -/
def State.grant (s : State ω ℓ δ α) (k : ℕ) (op : ω) (l : ℓ) : State ω ℓ δ α :=
  { s with
    threads := s.threads.set k (.inside op s.now l)
    readers := if code.exclusive op then s.readers else s.readers + 1
    writer := code.exclusive op }

/-- Thread `k` gives the lock back and returns. -/
def State.leave (s : State ω ℓ δ α) (k : ℕ) (op : ω) (start : ℕ) (answer : α) (data : δ) :
    State ω ℓ δ α :=
  { s with
    data
    threads := s.threads.set k .idle
    readers := if code.exclusive op then s.readers else s.readers - 1
    writer := if code.exclusive op then false else s.writer
    log := { op, start, stop := s.now, answer } :: s.log }

def step (s : State ω ℓ δ α) : Label ω χ → Option (State ω ℓ δ α)
  | .tick d => some { s with now := s.now + d }
  | .call k op =>
    match s.threads[k]? with
    | some .idle => some { s with threads := s.threads.set k (.waiting op) }
    | _ => none
  | .acquire k choice =>
    match s.threads[k]? with
    | some (.waiting op) =>
      if s.free code op then
        (code.enter op s.data choice).map fun l => s.grant code k op l
      else none
    | _ => none
  | .access k =>
    match s.threads[k]? with
    | some (.inside op start l) =>
      match code.access op l s.data s.now with
      | (.inl l', data) =>
        some { s with data, threads := s.threads.set k (.inside op start l') }
      | (.inr answer, data) => some (s.leave code k op start answer data)
    | _ => none

/-! ## What a step can do -/

inductive Step (s : State ω ℓ δ α) : Label ω χ → State ω ℓ δ α → Prop
  | tick (d : ℕ) : Step s (.tick d) { s with now := s.now + d }
  | calls {k : ℕ} (op : ω) : s.threads[k]? = some .idle →
      Step s (.call k op) { s with threads := s.threads.set k (.waiting op) }
  | acquires {k : ℕ} {choice : χ} {op : ω} {l : ℓ} : s.threads[k]? = some (.waiting op) →
      s.free code op = true → code.enter op s.data choice = some l →
      Step s (.acquire k choice) (s.grant code k op l)
  | goesOn {k : ℕ} {op : ω} {start : ℕ} {l l' : ℓ} {data : δ} :
      s.threads[k]? = some (.inside op start l) →
      code.access op l s.data s.now = (.inl l', data) →
      Step s (.access k) { s with data, threads := s.threads.set k (.inside op start l') }
  | returns {k : ℕ} {op : ω} {start : ℕ} {l : ℓ} {answer : α} {data : δ} :
      s.threads[k]? = some (.inside op start l) →
      code.access op l s.data s.now = (.inr answer, data) →
      Step s (.access k) (s.leave code k op start answer data)

variable {code} {s s' : State ω ℓ δ α}

theorem step_cases {l : Label ω χ} (h : step code s l = some s') : Step code s l s' := by
  cases l with
  | tick d =>
    obtain rfl := Option.some.inj h
    exact .tick d
  | call k op =>
    rw [step] at h
    split at h
    · next hk =>
      obtain rfl := Option.some.inj h
      exact .calls op hk
    · cases h
  | acquire k choice =>
    rw [step] at h
    split at h
    · next op hk =>
      split at h
      · next hfree =>
        obtain ⟨l, hl, rfl⟩ := Option.map_eq_some_iff.mp h
        exact .acquires hk hfree hl
      · cases h
    · cases h
  | access k =>
    rw [step] at h
    split at h
    · next op start l hk =>
      split at h
      · next l' data hacc =>
        obtain rfl := Option.some.inj h
        exact .goesOn hk hacc
      · next answer data hacc =>
        obtain rfl := Option.some.inj h
        exact .returns hk hacc
    · cases h

theorem step_acquires {k : ℕ} {choice : χ} {op : ω} {l : ℓ}
    (hk : s.threads[k]? = some (.waiting op)) (hfree : s.free code op = true)
    (hl : code.enter op s.data choice = some l) :
    step code s (.acquire k choice) = some (s.grant code k op l) := by
  simp only [step, hk, hfree, if_true, hl, Option.map_some]

theorem step_goesOn {k : ℕ} {op : ω} {start : ℕ} {l l' : ℓ} {data : δ}
    (hk : s.threads[k]? = some (.inside op start l))
    (hacc : code.access op l s.data s.now = (.inl l', data)) :
    step code s (.access k : Label ω χ) = some
      { s with data, threads := s.threads.set k (.inside op start l') } := by
  simp only [step, hk, hacc]

theorem step_returns {k : ℕ} {op : ω} {start : ℕ} {l : ℓ} {answer : α} {data : δ}
    (hk : s.threads[k]? = some (.inside op start l))
    (hacc : code.access op l s.data s.now = (.inr answer, data)) :
    step code s (.access k : Label ω χ) = some (s.leave code k op start answer data) := by
  simp only [step, hk, hacc]

/-! ## Who holds the lock -/

/-- The thread holds the lock, exclusively or not as `b` says. -/
def Thread.holds (code : Code ω χ ℓ δ α) (b : Bool) : Thread ω ℓ → Bool
  | .inside op _ _ => code.exclusive op == b
  | _ => false

/-- The state of the lock counts its holders, and a writer holds it alone. -/
structure Held (code : Code ω χ ℓ δ α) (s : State ω ℓ δ α) : Prop where
  readers : s.readers = s.threads.countP (Thread.holds code false)
  writer : s.writer.toNat = s.threads.countP (Thread.holds code true)
  alone : s.writer = true → s.readers = 0

/-- A thread that gets the lock or gives it back is counted, or no longer. -/
theorem countP_set {ts : List (Thread ω ℓ)} {k : ℕ} {t : Thread ω ℓ} (hk : ts[k]? = some t)
    (t' : Thread ω ℓ) (p : Thread ω ℓ → Bool) :
    (ts.set k t').countP p + (p t).toNat = ts.countP p + (p t').toNat := by
  obtain ⟨hlt, hget⟩ := List.getElem?_eq_some_iff.mp hk
  have hpos : (p t).toNat ≤ ts.countP p := by
    cases hp : p t with
    | true => exact List.countP_pos_iff.mpr ⟨t, List.mem_of_getElem? hk, hp⟩
    | false => exact Nat.zero_le _
  have htoNat (b : Bool) : (if b = true then 1 else 0) = b.toNat := by cases b <;> rfl
  rw [List.countP_set hlt, hget, htoNat, htoNat]
  omega

theorem Held.grant (hs : Held code s) {k : ℕ} {op : ω} (l : ℓ)
    (hk : s.threads[k]? = some (.waiting op)) (hfree : s.free code op = true) :
    Held code (s.grant code k op l) := by
  obtain ⟨hreaders, hwriter, -⟩ := hs
  have hcount (b : Bool) : (s.threads.set k (.inside op s.now l)).countP (Thread.holds code b) =
      s.threads.countP (Thread.holds code b) + (code.exclusive op == b).toNat :=
    countP_set hk (.inside op s.now l) (Thread.holds code b)
  simp only [State.free, Bool.and_eq_true, Bool.not_eq_true', Bool.or_eq_true,
    beq_iff_eq] at hfree
  obtain ⟨hnone, hshared⟩ := hfree
  rw [hnone] at hwriter
  cases hop : code.exclusive op with
  | false =>
    refine ⟨?_, ?_, ?_⟩
    · simp only [State.grant, hcount, hop, hreaders, Bool.false_eq_true, if_false]
      rfl
    · simp only [State.grant, hcount, hop, ← hwriter]
      rfl
    · simp only [State.grant, hop]
      exact nofun
  | true =>
    rw [hop] at hshared
    have hzero : s.readers = 0 := hshared.resolve_left nofun
    refine ⟨?_, ?_, fun _ => ?_⟩
    · simp only [State.grant, hcount, hop, if_true, hreaders]
      rfl
    · simp only [State.grant, hcount, hop, ← hwriter]
      rfl
    · simp only [State.grant, hop, if_true, hzero]

theorem Held.leave (hs : Held code s) {k : ℕ} {op : ω} {start : ℕ} {l : ℓ} (answer : α)
    (data : δ) (hk : s.threads[k]? = some (.inside op start l)) :
    Held code (s.leave code k op start answer data) := by
  obtain ⟨hreaders, hwriter, halone⟩ := hs
  have hcount (b : Bool) : (s.threads.set k .idle).countP (Thread.holds code b) +
      (code.exclusive op == b).toNat = s.threads.countP (Thread.holds code b) :=
    countP_set hk .idle (Thread.holds code b)
  have hfalse := hcount false
  have htrue := hcount true
  rw [← hreaders] at hfalse
  rw [← hwriter] at htrue
  cases hop : code.exclusive op with
  | false =>
    rw [hop, show (false == false) = true from rfl, Bool.toNat_true] at hfalse
    rw [hop, show (false == true) = false from rfl, Bool.toNat_false] at htrue
    refine ⟨?_, ?_, ?_⟩ <;> simp only [State.leave, hop, Bool.false_eq_true, if_false]
    · omega
    · omega
    · intro hw
      rw [halone hw]
  | true =>
    rw [hop, show (true == false) = false from rfl, Bool.toNat_false] at hfalse
    rw [hop, show (true == true) = true from rfl, Bool.toNat_true] at htrue
    have hone := Bool.toNat_le s.writer
    refine ⟨?_, ?_, ?_⟩ <;> simp only [State.leave, hop, if_true]
    · omega
    · rw [Bool.toNat_false]
      omega
    · exact nofun

theorem Held.step {l : Label ω χ} (hs : Held code s) (h : Step code s l s') : Held code s' := by
  cases h with
  | tick d => exact ⟨hs.readers, hs.writer, hs.alone⟩
  | @calls k op hk =>
    have hcount (b : Bool) := countP_set hk (.waiting op) (Thread.holds code b)
    exact ⟨hs.readers.trans (hcount false).symm, hs.writer.trans (hcount true).symm, hs.alone⟩
  | acquires hk hfree _ => exact hs.grant _ hk hfree
  | @goesOn k op start l l' data hk hacc =>
    have hcount (b : Bool) := Nat.add_right_cancel
      (countP_set hk (.inside op start l') (Thread.holds code b))
    exact ⟨hs.readers.trans (hcount false).symm, hs.writer.trans (hcount true).symm, hs.alone⟩
  | returns hk _ => exact hs.leave _ _ hk

/-! ## Operations that run alone -/

/-- An operation that was entered at `start` on data `d`, the clock now at `t`, when nobody
    else is near: where it is, and the data. -/
inductive Alone (code : Code ω χ ℓ δ α) (op : ω) (d : δ) (start : ℕ) : ℕ → ℓ → δ → Prop
  | enter {choice : χ} {l : ℓ} : code.enter op d choice = some l → Alone code op d start start l d
  | access {t t' : ℕ} {l l' : ℓ} {d₁ d₂ : δ} : Alone code op d start t l d₁ → t ≤ t' →
      code.access op l d₁ t' = (.inl l', d₂) → Alone code op d start t' l' d₂

/-- Alone, from data `d`, the operation returns this and leaves `d'`. -/
def Runs (code : Code ω χ ℓ δ α) (d : δ) (e : Done ω α) (d' : δ) : Prop :=
  ∃ t l d₁, Alone code e.op d e.start t l d₁ ∧ t ≤ e.stop ∧
    code.access e.op l d₁ e.stop = (.inr e.answer, d')

theorem Alone.start_le {op : ω} {d d₁ : δ} {start t : ℕ} {l : ℓ}
    (h : Alone code op d start t l d₁) : start ≤ t := by
  induction h with
  | enter _ => exact Nat.le_refl _
  | access _ hle _ ih => exact Nat.le_trans ih hle

/-- One that shares the lock leaves the data as it is. -/
theorem Alone.data_eq {op : ω} (hop : code.exclusive op = false) {d d₁ : δ} {start t : ℕ}
    {l : ℓ} (h : Alone code op d start t l d₁) : d₁ = d := by
  induction h with
  | enter _ => rfl
  | @access t t' l l' d₁ d₂ _ _ hacc ih =>
    have hdata := code.shares op l d₁ t' hop
    rw [hacc] at hdata
    exact hdata.trans ih

/-- The operations one after the other, the newest first: from `d₀` to the data, the last
    that wrote it having returned at a reading.  A writer begins when all before it have
    returned, a reader when the writers before it have. -/
inductive Serial (code : Code ω χ ℓ δ α) (d₀ : δ) : List (Done ω α) → δ → ℕ → Prop
  | nil : Serial code d₀ [] d₀ 0
  | reads {log : List (Done ω α)} {d : δ} {t : ℕ} {e : Done ω α} : Serial code d₀ log d t →
      code.exclusive e.op = false → t ≤ e.start → Runs code d e d →
      Serial code d₀ (e :: log) d t
  | writes {log : List (Done ω α)} {d d' : δ} {t : ℕ} {e : Done ω α} : Serial code d₀ log d t →
      code.exclusive e.op = true → t ≤ e.start → (∀ e' ∈ log, e'.stop ≤ e.start) →
      Runs code d e d' → Serial code d₀ (e :: log) d' e.stop

/-! ## Concurrent runs are serial -/

/-- After the operations that returned, serially, the data is `d`; the others are on their
    way alone from there, a writer having brought the data further. -/
structure Sound (code : Code ω χ ℓ δ α) (d₀ : δ) (s : State ω ℓ δ α) (d : δ) (t : ℕ) :
    Prop where
  held : Held code s
  serial : Serial code d₀ s.log d t
  past : ∀ e ∈ s.log, e.stop ≤ s.now
  ordered : s.log.Pairwise fun e e' => e'.stop ≤ e.stop
  last : t ≤ s.now
  inside : ∀ (k : ℕ) (op : ω) (start : ℕ) (l : ℓ), s.threads[k]? = some (.inside op start l) →
    t ≤ start ∧ (code.exclusive op = true → ∀ e ∈ s.log, e.stop ≤ start) ∧
      ∃ u ≤ s.now, Alone code op d start u l s.data
  free : s.writer = false → s.data = d

/-- A writer inside shuts everybody else out. -/
theorem Held.eq_of_writer (hs : Held code s) {k j : ℕ} {op op' : ω} {start start' : ℕ}
    {l l' : ℓ} (hk : s.threads[k]? = some (.inside op start l))
    (hj : s.threads[j]? = some (.inside op' start' l')) (hop : code.exclusive op = true) :
    j = k := by
  by_contra hne
  -- without the writer there is still a holder left
  have hset := countP_set hk .idle (Thread.holds code true)
  have hj' : (s.threads.set k .idle)[j]? = some (.inside op' start' l') := by
    rw [List.getElem?_set_ne (Ne.symm hne), hj]
  have hone : Thread.holds code true (.inside op start l) = true := by
    rw [Thread.holds, hop]
    rfl
  have hidle : Thread.holds code true .idle = false := rfl
  rw [hone, hidle, ← hs.writer] at hset
  simp only [Bool.toNat_true, Bool.toNat_false, Nat.add_zero] at hset
  have hw : s.writer = true := by
    cases hw : s.writer with
    | true => rfl
    | false => rw [hw, Bool.toNat_false] at hset; omega
  cases hop' : code.exclusive op' with
  | true =>
    have hpos : 0 < (s.threads.set k .idle).countP (Thread.holds code true) :=
      List.countP_pos_iff.mpr ⟨_, List.mem_of_getElem? hj', by rw [Thread.holds, hop']; rfl⟩
    rw [hw, Bool.toNat_true] at hset
    omega
  | false =>
    have hpos : 0 < s.threads.countP (Thread.holds code false) :=
      List.countP_pos_iff.mpr ⟨_, List.mem_of_getElem? hj, by rw [Thread.holds, hop']; rfl⟩
    have hzero := hs.alone hw
    rw [hs.readers] at hzero
    omega

/-- Whoever is inside has counted himself in. -/
theorem Held.writer_of_inside (hs : Held code s) {k : ℕ} {op : ω} {start : ℕ} {l : ℓ}
    (hk : s.threads[k]? = some (.inside op start l)) : s.writer = code.exclusive op := by
  have hpos : 0 < s.threads.countP (Thread.holds code (code.exclusive op)) :=
    List.countP_pos_iff.mpr ⟨_, List.mem_of_getElem? hk, beq_self_eq_true _⟩
  cases hop : code.exclusive op with
  | true =>
    rw [hop, ← hs.writer] at hpos
    cases hw : s.writer with
    | true => rfl
    | false => rw [hw] at hpos; cases hpos
  | false =>
    rw [hop, ← hs.readers] at hpos
    cases hw : s.writer with
    | true => rw [hs.alone hw] at hpos; cases hpos
    | false => rfl

theorem sound_initial (n : ℕ) (d₀ : δ) : Sound code d₀ (initial n d₀) d₀ 0 where
  held := by
    have hnone (b : Bool) : (List.replicate n (.idle : Thread ω ℓ)).countP
        (Thread.holds code b) = 0 := by
      rw [List.countP_eq_zero]
      intro t ht
      rw [List.eq_of_mem_replicate ht]
      exact nofun
    exact ⟨(hnone false).symm, (hnone true).symm, nofun⟩
  serial := .nil
  past := fun e he => by cases he
  ordered := .nil
  last := Nat.le_refl _
  inside := fun k op start l hk => by
    cases List.eq_of_mem_replicate (List.mem_of_getElem? hk)
  free := fun _ => rfl

theorem Sound.step {d₀ d : δ} {t : ℕ} (hs : Sound code d₀ s d t) {lab : Label ω χ}
    (h : Step code s lab s') : ∃ d' t', Sound code d₀ s' d' t' := by
  have hheld := hs.held.step h
  cases h with
  | tick n =>
    have hlater {u : ℕ} (hu : u ≤ s.now) : u ≤ s.now + n := Nat.le_add_right_of_le hu
    refine ⟨d, t, hheld, hs.serial, fun e he => hlater (hs.past e he), hs.ordered,
      hlater hs.last,
      fun k op start l hk => ?_, hs.free⟩
    obtain ⟨hstart, hwriter, u, hu, halone⟩ := hs.inside k op start l hk
    exact ⟨hstart, hwriter, u, hlater hu, halone⟩
  | calls op hk =>
    refine ⟨d, t, hheld, hs.serial, hs.past, hs.ordered, hs.last,
      fun j op' start l hj => ?_, hs.free⟩
    rcases Slots.set_cases hj with ⟨-, heq⟩ | ⟨-, hj⟩
    · cases heq
    · exact hs.inside j op' start l hj
  | @acquires k choice op l hk hfree hl =>
    simp only [State.free, Bool.and_eq_true, Bool.not_eq_true'] at hfree
    have hdata := hs.free hfree.1
    refine ⟨d, t, hheld, hs.serial, hs.past, hs.ordered, hs.last, fun j op' start l' hj => ?_,
      fun _ => hdata⟩
    rcases Slots.set_cases hj with ⟨-, heq⟩ | ⟨-, hj⟩
    · obtain ⟨rfl, rfl, rfl⟩ := Thread.inside.inj heq
      refine ⟨hs.last, fun _ => hs.past, s.now, Nat.le_refl _, ?_⟩
      rw [hdata] at hl
      show Alone code op' d s.now s.now l' s.data
      rw [hdata]
      exact .enter hl
    · exact hs.inside j op' start l' hj
  | @goesOn k op start l l' data hk hacc =>
    obtain ⟨hstart, hwriter, u, hu, halone⟩ := hs.inside k op start l hk
    have hmine : Alone code op d start s.now l' data := .access halone hu hacc
    have hother {j : ℕ} {op' : ω} {start' : ℕ} {m : ℓ} (hjk : j ≠ k)
        (hj : s.threads[j]? = some (.inside op' start' m)) : data = s.data := by
      cases hop : code.exclusive op with
      | true => exact absurd (hs.held.eq_of_writer hk hj hop) hjk
      | false =>
        have hdata := code.shares op l s.data s.now hop
        rw [hacc] at hdata
        exact hdata
    refine ⟨d, t, hheld, hs.serial, hs.past, hs.ordered, hs.last,
      fun j op' start' m hj => ?_, fun hw => ?_⟩
    · rcases Slots.set_cases hj with ⟨-, heq⟩ | ⟨hjk, hj⟩
      · obtain ⟨rfl, rfl, rfl⟩ := Thread.inside.inj heq
        exact ⟨hstart, hwriter, s.now, Nat.le_refl _, hmine⟩
      · dsimp only
        rw [hother hjk hj]
        exact hs.inside j op' start' m hj
    · have hop := (hs.held.writer_of_inside hk).symm.trans hw
      exact hmine.data_eq hop
  | @returns k op start l answer data hk hacc =>
    obtain ⟨hstart, hwriter, u, hu, halone⟩ := hs.inside k op start l hk
    have hruns : Runs code d ⟨op, start, s.now, answer⟩ data := ⟨u, l, s.data, halone, hu, hacc⟩
    have hpast : ∀ e ∈ (⟨op, start, s.now, answer⟩ : Done ω α) :: s.log, e.stop ≤ s.now := by
      intro e he
      rcases List.mem_cons.mp he with rfl | he
      · exact Nat.le_refl _
      · exact hs.past e he
    have hordered : ((⟨op, start, s.now, answer⟩ : Done ω α) :: s.log).Pairwise
        fun e e' => e'.stop ≤ e.stop := .cons hs.past hs.ordered
    by_cases hop : code.exclusive op = true
    · refine ⟨data, s.now, hheld, .writes hs.serial hop hstart (hwriter hop) hruns, hpast, hordered,
        Nat.le_refl _, fun j op' start' m hj => ?_, fun _ => rfl⟩
      rcases Slots.set_cases hj with ⟨-, heq⟩ | ⟨hjk, hj⟩
      · cases heq
      · exact absurd (hs.held.eq_of_writer hk hj hop) hjk
    · have hop := eq_false_of_ne_true hop
      have hsame : data = s.data := by
        have hdata := code.shares op l s.data s.now hop
        rw [hacc] at hdata
        exact hdata
      have hfree : s.writer = false := (hs.held.writer_of_inside hk).trans hop
      have hd : data = d := hsame.trans (hs.free hfree)
      rw [hd] at hruns
      refine ⟨d, t, hheld, .reads hs.serial hop hstart hruns, hpast, hordered, hs.last,
        fun j op' start' m hj => ?_, fun _ => hd⟩
      rcases Slots.set_cases hj with ⟨-, heq⟩ | ⟨hjk, hj⟩
      · cases heq
      · obtain ⟨hstart', hwriter', u', hu', halone'⟩ := hs.inside j op' start' m hj
        refine ⟨hstart', fun hop' => ?_, u', hu', ?_⟩
        · have hw := (hs.held.writer_of_inside hj).trans hop'
          rw [hfree] at hw
          cases hw
        · show Alone code op' d start' u' m data
          rw [hsame]
          exact halone'

theorem sound_of_reachable {n : ℕ} {d₀ : δ}
    (hr : Machine.Reachable (step code) (initial n d₀) s) : ∃ d t, Sound code d₀ s d t :=
  hr.invariant (I := fun s => ∃ d t, Sound code d₀ s d t) ⟨d₀, 0, sound_initial n d₀⟩
    fun _ _ _ ⟨_, _, hs⟩ _ hstep => hs.step (step_cases hstep)

/-! ## The lock is never lost -/

/-- Every section can be entered, and each access brings it nearer to its end. -/
structure Code.Ends (code : Code ω χ ℓ δ α) (rank : ω → ℓ → ℕ) : Prop where
  enters : ∀ op d, ∃ choice l, code.enter op d choice = some l
  access : ∀ {op l d t l' d'}, code.access op l d t = (.inl l', d') → rank op l' < rank op l

/-- What the thread was called to do. -/
def Thread.op? : Thread ω ℓ → Option ω
  | .idle => none
  | .waiting op | .inside op _ _ => some op

def Thread.isInside : Thread ω ℓ → Bool
  | .inside .. => true
  | _ => false

/-- A step of a thread that has been called: not a call, and not the passing of time. -/
def Label.works : Label ω χ → Bool
  | .acquire .. | .access _ => true
  | .tick _ | .call .. => false

section Ends

variable {rank : ω → ℓ → ℕ}

/-- Whoever is inside gets out by its own accesses. -/
theorem Code.Ends.exists_leave (hends : code.Ends rank) {k : ℕ} {op : ω} {start : ℕ} {l : ℓ}
    (hk : s.threads[k]? = some (.inside op start l)) :
    ∃ ls s' e, Machine.run (step code) s ls = some s' ∧ (∀ lab ∈ ls, lab.works = true) ∧
      s'.threads = s.threads.set k .idle ∧ s'.log = e :: s.log ∧ e.op = op := by
  induction hn : rank op l using Nat.strongRecOn generalizing s l with
  | _ n ih =>
    rcases hacc : code.access op l s.data s.now with ⟨l' | answer, data⟩
    · -- it is still inside, nearer to its end
      have hlt : rank op l' < n := hn ▸ hends.access hacc
      have hset : (s.threads.set k (.inside op start l'))[k]? = some (.inside op start l') :=
        Slots.set_self hk
      obtain ⟨ls, s', e, hrun, hworks, hthreads, hlog, hop⟩ := ih _ hlt
        (s := { s with data, threads := s.threads.set k (.inside op start l') }) hset rfl
      refine ⟨.access k :: ls, s', e, ?_, List.forall_mem_cons.mpr ⟨rfl, hworks⟩, ?_, hlog, hop⟩
      · rw [Machine.run, step_goesOn hk hacc, Option.bind_some, hrun]
      · rw [hthreads, List.set_set]
    · have hstep := step_returns hk hacc
      refine ⟨[.access k], s.leave code k op start answer data, _, ?_,
        List.forall_mem_singleton.mpr rfl, rfl, rfl, rfl⟩
      rw [Machine.run, hstep, Option.bind_some, Machine.run]

/-- From every state all who are inside get out, and nobody else does anything. -/
theorem Code.Ends.exists_quiet (hends : code.Ends rank) (s : State ω ℓ δ α) :
    ∃ ls s', Machine.run (step code) s ls = some s' ∧ (∀ lab ∈ ls, lab.works = true) ∧
      (∀ t ∈ s'.threads, t.isInside = false) ∧
      ∀ (j : ℕ) (op : ω), s.threads[j]? = some (.waiting op) →
        s'.threads[j]? = some (.waiting op) := by
  induction hn : s.threads.countP Thread.isInside using Nat.strongRecOn generalizing s with
  | _ n ih =>
    by_cases hin : ∃ t ∈ s.threads, t.isInside = true
    · obtain ⟨t, ht, hin⟩ := hin
      obtain ⟨k, hk⟩ := List.getElem?_of_mem ht
      cases t with
      | idle => cases hin
      | waiting op => cases hin
      | inside op start l =>
        obtain ⟨ls, s₁, e, hrun, hworks, hthreads, -⟩ := hends.exists_leave hk
        have hcount := countP_set hk .idle Thread.isInside
        simp only [Thread.isInside, Bool.toNat_true, Bool.toNat_false] at hcount
        obtain ⟨ls', s', hrun', hworks', hquiet, hwaits⟩ :=
          ih (s₁.threads.countP Thread.isInside) (by rw [hthreads]; omega) s₁ rfl
        refine ⟨ls ++ ls', s', (Machine.run_append hrun).trans hrun', fun lab hlab => ?_, hquiet,
          fun j op' hj => hwaits j op' ?_⟩
        · exact (List.mem_append.mp hlab).elim (hworks lab) (hworks' lab)
        · have hne : k ≠ j := by
            rintro rfl
            rw [hk] at hj
            cases hj
          rw [hthreads, List.getElem?_set_ne hne, hj]
    · refine ⟨[], s, rfl, nofun, fun t ht => ?_, fun _ _ h => h⟩
      exact eq_false_of_ne_true fun htrue => hin ⟨t, ht, htrue⟩

/-- **The lock is never lost.**  From every reachable state every call can be brought to its
    end by steps of threads that have been called. -/
theorem Code.Ends.exists_return (hends : code.Ends rank) {n : ℕ} {d₀ : δ}
    (hr : Machine.Reachable (step code) (initial n d₀) s) {k : ℕ} {th : Thread ω ℓ} {op : ω}
    (hk : s.threads[k]? = some th) (hop : th.op? = some op) :
    ∃ ls s' e, Machine.run (step code) s ls = some s' ∧ (∀ lab ∈ ls, lab.works = true) ∧
      s'.threads[k]? = some .idle ∧ e.op = op ∧ e ∈ s'.log := by
  cases th with
  | idle => cases hop
  | inside op' start l =>
    obtain rfl := Option.some.inj hop
    obtain ⟨ls, s', e, hrun, hworks, hthreads, hlog, hop⟩ := hends.exists_leave hk
    refine ⟨ls, s', e, hrun, hworks, ?_, hop, ?_⟩
    · rw [hthreads, Slots.set_self hk]
    · rw [hlog]
      exact List.mem_cons_self
  | waiting op' =>
    obtain rfl := Option.some.inj hop
    obtain ⟨ls, s₁, hrun, hworks, hquiet, hwaits⟩ := hends.exists_quiet s
    obtain ⟨_, _, hsound⟩ := sound_of_reachable (hr.of_run hrun)
    have hk₁ := hwaits k op' hk
    -- nobody is inside, so the lock is free
    have hnone (b : Bool) : s₁.threads.countP (Thread.holds code b) = 0 := by
      rw [List.countP_eq_zero]
      intro t ht hholds
      cases t with
      | idle => cases hholds
      | waiting _ => cases hholds
      | inside _ _ _ => cases hquiet _ ht
    have hreaders : s₁.readers = 0 := hsound.held.readers.trans (hnone false)
    have hwriter : s₁.writer = false := by
      have hzero := hsound.held.writer.trans (hnone true)
      cases hw : s₁.writer with
      | false => rfl
      | true => rw [hw] at hzero; cases hzero
    have hfree : s₁.free code op' = true := by
      rw [State.free, hwriter, hreaders]
      simp
    obtain ⟨choice, l, hl⟩ := hends.enters op' s₁.data
    have hacquire := step_acquires hk₁ hfree hl
    have hset : (s₁.threads.set k (.inside op' s₁.now l))[k]? =
        some (.inside op' s₁.now l) := Slots.set_self hk₁
    obtain ⟨ls', s', e, hrun', hworks', hthreads, hlog, hop⟩ :=
      hends.exists_leave (s := s₁.grant code k op' l) hset
    refine ⟨ls ++ .acquire k choice :: ls', s', e, ?_, fun lab hlab => ?_, ?_, hop, ?_⟩
    · rw [Machine.run_append hrun, Machine.run, hacquire, Option.bind_some, hrun']
    · rcases List.mem_append.mp hlab with hlab | hlab
      · exact hworks lab hlab
      · rcases List.mem_cons.mp hlab with rfl | hlab
        · rfl
        · exact hworks' lab hlab
    · rw [hthreads]
      exact Slots.set_self hset
    · rw [hlog]
      exact List.mem_cons_self

end Ends

end SharedLock
