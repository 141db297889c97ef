import Xv6.Pipe

/-! Pipes: what each turn of a process does, and that the bytes come out in the order in which they went in. -/

namespace Xv6
open Option

def Pipe.Waits (p : Pipe) : PipeChan → Prop
  | .nread => p.Empty ∧ p.writeopen = true
  | .nwrite => p.Full ∧ p.readopen = true

def Pipe.isOpen (p : Pipe) (writable : Bool) : Bool := if writable then p.writeopen else p.readopen

theorem Pipe.shut_isOpen {p : Pipe} {w w' : Bool} : (p.shut w).isOpen w' = if w' = w then false else p.isOpen w' := by
  cases w <;> cases w' <;> rfl

theorem Pipe.not_empty_of_full {p : Pipe} (h : p.Full) : ¬p.Empty := by
  intro he
  unfold RingBuf.Full at h
  rw [← show p.nread = p.nwrite from he, BitVec.self_eq_add_right] at h
  exact absurd h (by decide)

namespace PipeThread

def locks : PipeThread → Bool
  | .write _ | .writeFull _ | .read _ | .readEmpty _ | .copy _ | .closing _ | .leave => true
  | .idle | .writeSleep _ | .readSleep _ | .close _ => false

def uses : PipeThread → Option Bool
  | .write _ | .writeFull _ | .writeSleep _ => some true
  | .read _ | .readEmpty _ | .readSleep _ | .copy _ => some false
  | .idle | .close _ | .closing _ | .leave => none

def sleepsOn : PipeThread → Option PipeChan
  | .writeFull _ => some .nwrite
  | .readEmpty _ => some .nread
  | _ => none

def sleptOn : PipeThread → Option PipeChan
  | .writeSleep _ => some .nwrite
  | .readSleep _ => some .nread
  | _ => none

def storing : PipeThread → Bool
  | .write (_ :: _) => true
  | _ => false

def wakes : PipeThread → Option PipeChan
  | .write _ | .closing true => some .nread
  | .copy _ | .closing false => some .nwrite
  | _ => none

variable {th : PipeThread}

theorem sleptOn_of_locks (h : th.locks = true) : th.sleptOn = none := by
  cases th <;> simp_all [locks, sleptOn]

theorem locks_of_wakes {ch : PipeChan} (h : th.wakes = some ch) : th.locks = true := by
  cases th <;> simp_all [locks, wakes]

theorem locks_of_sleepsOn {ch : PipeChan} (h : th.sleepsOn = some ch) : th.locks = true := by
  cases th <;> simp_all [locks, sleepsOn]

theorem locks_of_sleptOn (h : th.sleptOn.isSome) : th.locks = false := by
  cases th <;> simp_all [locks, sleptOn]

end PipeThread

theorem PipeProc.dropEnd_thread {x : PipeProc} {w : Bool} : (x.dropEnd w).thread = x.thread := by cases w <;> rfl

theorem PipeProc.dropEnd_chan {x : PipeProc} {w : Bool} : (x.dropEnd w).chan = x.chan := by cases w <;> rfl

theorem PipeProc.hasEnd_of_dropEnd {x : PipeProc} {w w' : Bool} (h : (x.dropEnd w).hasEnd w' = true) :
    x.hasEnd w' = true := by
  cases w <;> cases w' <;> simp_all [dropEnd, hasEnd]

namespace PipeUse

variable {P : Type} [DecidableEq P] {s t : PipeUse P} {p q : P} {l : Label P} {th : PipeThread} {ch : PipeChan}

/-! ### Fields -/

theorem modify_proc {f : PipeProc → PipeProc} : (s.modify p f).proc q = if q = p then f (s.proc p) else s.proc q := by
  unfold modify
  split
  · next h => simp [h]
  · next h => simp [h]

@[simp] theorem goto_lock : (s.goto p th).lock = s.lock := rfl
@[simp] theorem goto_pipe : (s.goto p th).pipe = s.pipe := rfl
@[simp] theorem goto_thread : ((s.goto p th).proc q).thread = if q = p then th else (s.proc q).thread := by
  rw [goto, modify_proc]
  split <;> rfl

@[simp] theorem goto_chan : ((s.goto p th).proc q).chan = (s.proc q).chan := by
  rw [goto, modify_proc]
  split
  · next h => rw [h]
  · rfl

@[simp] theorem goto_hasEnd {w : Bool} : ((s.goto p th).proc q).hasEnd w = (s.proc q).hasEnd w := by
  rw [goto, modify_proc]
  split
  · next h => rw [h]; rfl
  · rfl

omit [DecidableEq P] in
@[simp] theorem wakeup_thread : ((s.wakeup ch).proc q).thread = (s.proc q).thread := by
  simp only [wakeup]
  split <;> rfl

omit [DecidableEq P] in
@[simp] theorem wakeup_chan :
    ((s.wakeup ch).proc q).chan = if (s.proc q).chan = some ch then none else (s.proc q).chan := by
  simp only [wakeup]
  split <;> simp_all

omit [DecidableEq P] in
@[simp] theorem wakeup_hasEnd {w : Bool} : ((s.wakeup ch).proc q).hasEnd w = (s.proc q).hasEnd w := by
  simp only [wakeup]
  split <;> rfl

@[simp] theorem sleep_thread : ((s.sleep p ch th).proc q).thread = if q = p then th else (s.proc q).thread := by
  simp only [sleep, modify_proc]
  split <;> rfl

@[simp] theorem sleep_chan : ((s.sleep p ch th).proc q).chan = if q = p then some ch else (s.proc q).chan := by
  simp only [sleep, modify_proc]
  split <;> rfl

@[simp] theorem sleep_hasEnd {w : Bool} : ((s.sleep p ch th).proc q).hasEnd w = (s.proc q).hasEnd w := by
  simp only [sleep, modify_proc]
  split
  · next h => rw [h]; rfl
  · rfl

theorem acquire_some (h : s.acquire p th = some t) : s.lock = none ∧ t = { s.goto p th with lock := some p } := by
  unfold acquire at h
  split_ifs at h with hl
  exact ⟨hl, (Option.some.inj h).symm⟩

inductive Turn (s : PipeUse P) (p : P) : PipeUse P → Prop
  | wake {ch : PipeChan} (h : (s.proc p).thread.wakes = some ch) : Turn s p ((s.wakeup ch).goto p .leave)
  | full {left : List UInt8} (h : (s.proc p).thread = .write left) (hf : s.pipe.Full) (ho : s.pipe.readopen = true) :
    Turn s p ((s.wakeup .nread).goto p (.writeFull left))
  | broken {b : UInt8} {left : List UInt8} (h : (s.proc p).thread = .write (b :: left)) (hf : s.pipe.Full)
    (hk : s.pipe.readopen = false ∨ (s.proc p).killed = true) : Turn s p (s.leave p)
  | store {b : UInt8} {left : List UInt8} (h : (s.proc p).thread = .write (b :: left)) (hf : ¬s.pipe.Full) :
    Turn s p { s.goto p (.write left) with
      pipe := { s.pipe with toRingBuf := s.pipe.push b }, stored := s.stored ++ [b] }
  | sleep {ch : PipeChan} {th : PipeThread} (h : (s.proc p).thread.sleepsOn = some ch) (hs : th.sleptOn = some ch)
    (hu : th.uses = (s.proc p).thread.uses) (hl : th.locks = false) : Turn s p (s.sleep p ch th)
  | resume {th : PipeThread} (h : (s.proc p).thread.sleptOn.isSome) (hc : (s.proc p).chan = none) (hl : s.lock = none)
    (hth : (∃ left, th = .write left) ∨ ∃ n, th = .read n) (hu : th.uses = (s.proc p).thread.uses) :
    Turn s p { s.goto p th with lock := some p }
  | empty {n : Nat} (h : (s.proc p).thread = .read n) (hw : s.pipe.Waits .nread) : Turn s p (s.goto p (.readEmpty n))
  | copy {n : Nat} (h : (s.proc p).thread = .read n) : Turn s p (s.goto p (.copy n))
  | take {n : Nat} (h : (s.proc p).thread = .copy (n + 1)) (he : ¬s.pipe.Empty) :
    Turn s p { s.goto p (.copy n) with
      pipe := { s.pipe with toRingBuf := s.pipe.pop }, taken := s.taken ++ [s.pipe.front] }
  | shut {w : Bool} (h : (s.proc p).thread = .close w) (hl : s.lock = none) :
    Turn s p { s.goto p (.closing w) with lock := some p, pipe := s.pipe.shut w }
  | leave (h : (s.proc p).thread = .leave ∨ ∃ n, (s.proc p).thread = .read n) : Turn s p (s.leave p)

theorem turn_inv (h : s.turn p = some t) : Turn s p t := by
  unfold turn at h
  split at h
  case h_1 => cases h
  case h_2 hth =>
    cases h
    exact .wake (by rw [hth]; rfl)
  case h_3 b bs hth =>
    split at h
    · next hf =>
      split at h
      · next hk =>
        cases h
        exact .broken hth hf hk
      · next hk =>
        cases h
        exact .full hth hf (by simpa using (not_or.mp hk).1)
    · next hf =>
      cases h
      exact .store hth hf
  case h_4 bs hth =>
    cases h
    exact .sleep (by rw [hth]; rfl) rfl (by rw [hth]; rfl) rfl
  case h_5 bs hth =>
    rw [ite_none_right_eq_some] at h
    obtain ⟨hl, rfl⟩ := acquire_some h.2
    exact .resume (by rw [hth]; rfl) h.1 hl (.inl ⟨bs, rfl⟩) (by rw [hth]; rfl)
  case h_6 n hth =>
    split at h
    · next he =>
      split at h
      · cases h
        exact .leave (.inr ⟨n, hth⟩)
      · cases h
        exact .empty hth he
    · cases h
      exact .copy hth
  case h_7 n hth =>
    cases h
    exact .sleep (by rw [hth]; rfl) rfl (by rw [hth]; rfl) rfl
  case h_8 n hth =>
    rw [ite_none_right_eq_some] at h
    obtain ⟨hl, rfl⟩ := acquire_some h.2
    exact .resume (by rw [hth]; rfl) h.1 hl (.inr ⟨n, rfl⟩) (by rw [hth]; rfl)
  case h_9 hth =>
    cases h
    exact .wake (by rw [hth]; rfl)
  case h_10 n hth =>
    split at h
    · cases h
      exact .wake (by rw [hth]; rfl)
    · next he =>
      cases h
      exact .take hth he
  case h_11 w hth =>
    rw [map_eq_some_iff] at h
    obtain ⟨u, hu, rfl⟩ := h
    obtain ⟨hl, rfl⟩ := acquire_some hu
    exact .shut hth hl
  case h_12 w hth =>
    cases h
    exact .wake (by rw [hth]; cases w <;> rfl)
  case h_13 hth =>
    cases h
    exact .leave (.inl hth)

variable [Fintype P]

/-! ### First in, first out -/

theorem next_buffer (h : s.next l = some t) :
    t.pipe.toRingBuf = s.pipe.toRingBuf ∧ t.stored = s.stored ∧ t.taken = s.taken ∨
    (∃ b, ¬s.pipe.Full ∧ t.pipe.toRingBuf = s.pipe.push b ∧ t.stored = s.stored ++ [b] ∧ t.taken = s.taken) ∨
    ¬s.pipe.Empty ∧ t.pipe.toRingBuf = s.pipe.pop ∧ t.stored = s.stored ∧ t.taken = s.taken ++ [s.pipe.front] := by
  cases l with
  | write p addr =>
    simp only [next, ite_none_right_eq_some] at h
    obtain ⟨-, rfl⟩ := acquire_some h.2
    exact .inl ⟨rfl, rfl, rfl⟩
  | read p n =>
    simp only [next, ite_none_right_eq_some] at h
    obtain ⟨-, rfl⟩ := acquire_some h.2
    exact .inl ⟨rfl, rfl, rfl⟩
  | close p w =>
    simp only [next, ite_none_right_eq_some] at h
    obtain ⟨-, h⟩ := h
    split at h
    all_goals
      cases h
      exact .inl ⟨rfl, rfl, rfl⟩
  | fork p q =>
    simp only [next, ite_none_right_eq_some] at h
    cases h.2
    exact .inl ⟨rfl, rfl, rfl⟩
  | kill p =>
    cases h
    exact .inl ⟨rfl, rfl, rfl⟩
  | step p =>
    cases turn_inv h with
    | store _ hf => exact .inr (.inl ⟨_, hf, rfl, rfl, rfl⟩)
    | take _ he => exact .inr (.inr ⟨he, rfl, rfl, rfl⟩)
    | @shut w => exact .inl ⟨by cases w <;> rfl, rfl, rfl⟩
    | _ => exact .inl ⟨rfl, rfl, rfl⟩

theorem pipesize_dvd : PIPESIZE ∣ 2 ^ 32 := by decide

theorem pipesize_lt : PIPESIZE < 2 ^ 32 := by decide

theorem reach_holds (h : (machine P).Reach s) : s.pipe.Holds s.stored s.taken := by
  refine h.invariant (I := fun s => s.pipe.Holds s.stored s.taken) (fun s (hs : Fresh s) => ?_) fun s l t hi hst => ?_
  · rw [hs.stored, hs.taken]
    exact ⟨hs.nread, hs.nwrite, List.prefix_rfl, by simp, by simp⟩
  · rcases next_buffer hst with ⟨h1, h2, h3⟩ | ⟨b, hf, h1, h2, h3⟩ | ⟨he, h1, h2, h3⟩
    · rwa [h1, h2, h3]
    · rw [h1, h2, h3]
      exact hi.push pipesize_dvd pipesize_lt hf b
    · rw [h1, h2, h3]
      exact hi.pop pipesize_dvd pipesize_lt he

/-- However often the counters have wrapped around, the bytes handed to readers are the first of the bytes stored by
    writers; the difference of the counters says how many are left, at most PIPESIZE; and each of those is still in its
    cell. -/
theorem pipe_fifo (h : (machine P).Reach s) :
    s.taken <+: s.stored ∧ s.stored.length = s.taken.length + (s.pipe.nwrite - s.pipe.nread).toNat ∧
      (s.pipe.nwrite - s.pipe.nread).toNat ≤ PIPESIZE ∧
      ∀ j (hj : j < s.stored.length), s.taken.length ≤ j → s.pipe.data (Fin.ofNat PIPESIZE j) = s.stored[j] := by
  have hh := reach_holds h
  obtain ⟨h1, h2⟩ := hh.length pipesize_lt
  exact ⟨hh.fifo, h1, h2, hh.kept⟩

def twoEnds : PipeUse (Fin 2) where
  pipe := { data := fun _ => 0, nread := 0, nwrite := 0 }
  lock := none
  proc p := if p = 0 then { reader := true } else { writer := true }
  stored := []
  taken := []

theorem twoEnds_fresh : twoEnds.Fresh where
  nread := rfl
  nwrite := rfl
  readopen := rfl
  writeopen := rfl
  lock := rfl
  idle := by decide
  awake := by decide
  stored := rfl
  taken := rfl

def threeBytes : List (Label (Fin 2)) :=
  [.read 0 2, .step 0, .step 0, .write 1 [5, 6, 7], .step 1, .step 1, .step 1, .step 1, .step 1]

theorem pipe_fifo_threeBytes : ∃ s, (machine (Fin 2)).Reach s ∧ s.stored = [5, 6, 7] ∧ s.taken = [5, 6] ∧
    s.taken <+: s.stored ∧ (s.pipe.nwrite - s.pipe.nread).toNat ≤ PIPESIZE := by
  obtain ⟨s, hs, h⟩ := Option.exists_of_any (o := (threeBytes ++ List.replicate 6 (Label.step 0)).foldlM next twoEnds)
      (p := fun s : PipeUse (Fin 2) => s.stored = [5, 6, 7] ∧ s.taken = [5, 6]) (by decide +kernel)
  have hr : (machine (Fin 2)).Reach s := .foldlM (fun _ _ _ => id) (.init twoEnds_fresh) hs
  obtain ⟨h1, -, h2, -⟩ := pipe_fifo hr
  exact ⟨s, hr, h.1, h.2, h1, h2⟩

end PipeUse
end Xv6
