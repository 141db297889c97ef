import Xv6.Theorems.Pipe.Fifo

/-! Pipes: the processes that a call leaves asleep. Whoever gives up the lock has woken the sleepers for which
    something has changed, with one exception. -/

namespace Xv6
open Option
namespace PipeUse

variable {P : Type} {s t : PipeUse P} {p q : P} {l : Label P} {th : PipeThread} {ch : PipeChan}

structure Owners (s : PipeUse P) : Prop where
  lock : ∀ q, s.lock = some q ↔ (s.proc q).thread.locks = true
  chan : ∀ q ch, (s.proc q).chan = some ch → (s.proc q).thread.sleptOn = some ch
  ends : ∀ q w, (s.proc q).thread.uses = some w → (s.proc q).hasEnd w = true
  closed : ∀ w, s.pipe.isOpen w = false ∨ (∃ q, (s.proc q).thread = .close w) → ∀ q, (s.proc q).hasEnd w = false

/-- Every sleeper waits for something that has not come yet, unless the holder of the lock is about to wake it. -/
structure Wakes (s : PipeUse P) : Prop where
  about : ∀ q ch, (s.proc q).thread.sleepsOn = some ch → s.pipe.Waits ch
  asleep : ∀ q ch, (s.proc q).chan = some ch →
    s.pipe.Waits ch ∨ ∃ h, s.lock = some h ∧ (s.proc h).thread.wakes = some ch

theorem Wakes.held (h : Wakes s) (ho : Owners s) (hp : (s.proc p).thread.locks = true) {q : P} {ch : PipeChan}
    (hc : (s.proc q).chan = some ch) : s.pipe.Waits ch ∨ (s.proc p).thread.wakes = some ch := by
  refine (h.asleep q ch hc).imp_right fun ⟨r, hr, hw⟩ => ?_
  rw [(ho.lock p).mpr hp] at hr
  cases hr
  exact hw

theorem Wakes.free (h : Wakes s) (hl : s.lock = none) {q : P} {ch : PipeChan} (hc : (s.proc q).chan = some ch) :
    s.pipe.Waits ch := by
  refine (h.asleep q ch hc).resolve_right ?_
  rintro ⟨r, hr, -⟩
  simp [hl] at hr

theorem Owners.about_eq (ho : Owners s) (hp : (s.proc p).thread.locks = true)
    (hq : (s.proc q).thread.sleepsOn = some ch) : q = p := by
  have h1 := (ho.lock q).mpr (PipeThread.locks_of_sleepsOn hq)
  rw [(ho.lock p).mpr hp] at h1
  exact (some.inj h1).symm

theorem Owners.others (ho : Owners s) (hp : (s.proc p).thread.locks = true) :
    ∀ q ≠ p, (s.proc q).thread.sleepsOn = none := by
  intro q hq
  cases hs : (s.proc q).thread.sleepsOn with
  | none => rfl
  | some ch => exact absurd (ho.about_eq hp hs) hq

/-- No process sleeps on a channel of the pipe although what it waits for has happened. -/
def NoLostWakeup (s : PipeUse P) : Prop :=
  ∀ q, ((s.proc q).chan = some .nread → ¬(s.pipe.nread ≠ s.pipe.nwrite ∨ s.pipe.writeopen = false)) ∧
    ((s.proc q).chan = some .nwrite →
      ¬(s.pipe.nwrite ≠ s.pipe.nread + BitVec.ofNat 32 PIPESIZE ∨ s.pipe.readopen = false))

theorem noLostWakeup_iff : NoLostWakeup s ↔ ∀ q ch, (s.proc q).chan = some ch → s.pipe.Waits ch := by
  constructor
  · intro h q ch hc
    cases ch with
    | nread => simpa [Pipe.Waits, RingBuf.Empty] using (h q).1 hc
    | nwrite => simpa [Pipe.Waits, RingBuf.Full] using (h q).2 hc
  · intro h q
    constructor
    · intro hc
      simpa [Pipe.Waits, RingBuf.Empty] using h q .nread hc
    · intro hc
      simpa [Pipe.Waits, RingBuf.Full] using h q .nwrite hc

theorem Owners.chan_none (h : Owners s) (hp : (s.proc p).thread.sleptOn = none) : (s.proc p).chan = none := by
  cases hc : (s.proc p).chan with
  | none => rfl
  | some ch => simp [h.chan p ch hc] at hp

theorem Wakes.waits (h : Wakes s) (ho : Owners s) (hp : (s.proc p).thread.locks = true)
    (hw : (s.proc p).thread.wakes = none) (hc : (s.proc q).chan = some ch) : s.pipe.Waits ch :=
  (h.held ho hp hc).resolve_right fun hw' => by simp [hw] at hw'

theorem Wakes.keep (h : Wakes s) (hpipe : t.pipe = s.pipe) (hlock : t.lock = s.lock)
    (hth : ∀ q, (t.proc q).thread.sleepsOn = (s.proc q).thread.sleepsOn ∧
    (t.proc q).thread.wakes = (s.proc q).thread.wakes)
    (hchan : ∀ q ch, (t.proc q).chan = some ch → (s.proc q).chan = some ch) : Wakes t where
  about q ch hs := hpipe ▸ h.about q ch ((hth q).1 ▸ hs)
  asleep q ch hc := by
    rw [hpipe, hlock]
    exact (h.asleep q ch (hchan q ch hc)).imp_right fun ⟨r, hr, hw⟩ => ⟨r, hr, (hth r).2.trans hw⟩

variable [DecidableEq P]

theorem Wakes.owe (hp : t.lock = some p) (hth : ∀ q, (t.proc q).thread = if q = p then th else (s.proc q).thread)
    (hw : th.wakes = some ch) (hother : ∀ q ≠ p, (s.proc q).thread.sleepsOn = none)
    (hchan : ∀ q ch', (t.proc q).chan = some ch' → ch' ≠ ch → t.pipe.Waits ch') : Wakes t where
  about q ch' hs := by
    rw [hth] at hs
    split at hs
    · cases th <;> simp_all [PipeThread.wakes, PipeThread.sleepsOn]
    · next hq => simp [hother q hq] at hs
  asleep q ch' hc := by
    by_cases hch : ch' = ch
    · refine .inr ⟨p, hp, ?_⟩
      rw [hth, if_pos rfl, hw, hch]
    · exact .inl (hchan q ch' hc hch)

section

variable (h : Owners s)
include h

theorem Owners.move (hth : ∀ q, (t.proc q).thread = if q = p then th else (s.proc q).thread)
    (hend : ∀ q w, (t.proc q).hasEnd w = (s.proc q).hasEnd w) (hopen : ∀ w, t.pipe.isOpen w = s.pipe.isOpen w)
    (hchan : ∀ q ch, (t.proc q).chan = some ch → q ≠ p ∧ (s.proc q).chan = some ch ∨ q = p ∧ th.sleptOn = some ch)
    (hlock : ∀ q, t.lock = some q ↔ if q = p then th.locks = true else s.lock = some q)
    (huses : ∀ w, th.uses = some w → (s.proc p).hasEnd w = true) (hclose : ∀ w, th ≠ .close w) : Owners t where
  lock q := by
    rw [hlock, hth]
    split
    · rfl
    · exact h.lock q
  chan q ch hc := by
    rw [hth]
    rcases hchan q ch hc with ⟨hq, hs⟩ | ⟨rfl, hs⟩
    · rw [if_neg hq]
      exact h.chan q ch hs
    · rwa [if_pos rfl]
  ends q w hu := by
    rw [hend]
    rw [hth] at hu
    split at hu
    · next hq =>
      subst hq
      exact huses w hu
    · exact h.ends q w hu
  closed w hw q := by
    rw [hend]
    refine h.closed w (hw.imp (fun ho => hopen w ▸ ho) fun ⟨r, hr⟩ => ⟨r, ?_⟩) q
    rw [hth] at hr
    split at hr
    · exact absurd hr (hclose w)
    · exact hr

theorem Owners.keep (hth : ∀ q, (t.proc q).thread = if q = p then th else (s.proc q).thread)
    (hp : (s.proc p).thread.locks = true) (hl : th.locks = true)
    (hu : th.uses = none ∨ th.uses = (s.proc p).thread.uses) (hend : ∀ q w, (t.proc q).hasEnd w = (s.proc q).hasEnd w)
    (hchan : ∀ q ch, (t.proc q).chan = some ch → (s.proc q).chan = some ch) (hlock : t.lock = s.lock)
    (hopen : ∀ w, t.pipe.isOpen w = s.pipe.isOpen w) : Owners t := by
  have hnone : (s.proc p).chan = none := h.chan_none (PipeThread.sleptOn_of_locks hp)
  refine h.move hth hend hopen (fun q ch hc => .inl ⟨?_, hchan q ch hc⟩) (fun q => ?_) (fun w hw => ?_) fun w hw => ?_
  · rintro rfl
    simp [hchan q ch hc] at hnone
  · rw [hlock, (h.lock p).mpr hp]
    split
    · next hq => simp [hq, hl]
    · rfl
  · rcases hu with hn | hs
    · rw [hn] at hw
      cases hw
    · exact h.ends p w (hs ▸ hw)
  · rw [hw] at hl
    cases hl

theorem Owners.leave (hp : (s.proc p).thread.locks = true) : Owners (s.leave p) := by
  have hnone : (s.proc p).chan = none := h.chan_none (PipeThread.sleptOn_of_locks hp)
  have hth : ∀ q, ((s.leave p).proc q).thread = if q = p then .idle else (s.proc q).thread := fun q => goto_thread
  have hchan : ∀ q, ((s.leave p).proc q).chan = (s.proc q).chan := fun q => goto_chan
  refine h.move hth (fun q w => goto_hasEnd) (fun w => rfl) (fun q ch hc => .inl ⟨?_, hchan q ▸ hc⟩) (fun q => ?_)
    nofun nofun
  · rintro rfl
    simp [hchan, hnone] at hc
  · rw [(h.lock p).mpr hp]
    split
    · next hq => simp [hq, PipeUse.leave, PipeThread.locks]
    · next hq => simp [PipeUse.leave, Ne.symm hq]

theorem Owners.sleep {ch : PipeChan} (hp : (s.proc p).thread.locks = true) (hs : th.sleptOn = some ch)
    (hu : th.uses = (s.proc p).thread.uses) : Owners (s.sleep p ch th) := by
  have hl : th.locks = false := PipeThread.locks_of_sleptOn (by simp [hs])
  refine h.move (fun q => sleep_thread) (fun q w => sleep_hasEnd) (fun w => rfl) (fun q ch' hc => ?_) (fun q => ?_)
    (fun w hw => h.ends p w (hu ▸ hw)) fun w hw => ?_
  · rw [sleep_chan] at hc
    split at hc
    · next hq => exact .inr ⟨hq, hs.trans hc⟩
    · next hq => exact .inl ⟨hq, hc⟩
  · rw [(h.lock p).mpr hp]
    split
    · simp [PipeUse.sleep, hl]
    · next hq => simp [PipeUse.sleep, Ne.symm hq]
  · rw [hw] at hs
    cases hs

theorem Owners.acquire (hl : s.lock = none) (hc : (s.proc p).chan = none) (hlk : th.locks = true)
    (hu : ∀ w, th.uses = some w → (s.proc p).hasEnd w = true) : Owners { s.goto p th with lock := some p } := by
  refine h.move (fun q => goto_thread) (fun q w => goto_hasEnd) (fun w => rfl) (fun q ch hq => .inl ⟨?_, ?_⟩)
    (fun q => ?_) hu fun w hw => ?_
  · rintro rfl
    simp [hc] at hq
  · simpa using hq
  · split
    · next hq => simp [hq, hlk]
    · next hq => simp [hl, Ne.symm hq]
  · rw [hw] at hlk
    cases hlk

theorem Owners.turn (ht : Turn s p t) : Owners t := by
  cases ht with
  | @wake ch hw =>
    have hth : ∀ q, (((s.wakeup ch).goto p .leave).proc q).thread = if q = p then .leave else (s.proc q).thread := by
      simp
    refine h.keep hth (PipeThread.locks_of_wakes hw) rfl (.inl rfl) (fun q w => by simp) (fun q ch hc => ?_) rfl
      fun w => rfl
    simp only [goto_chan, wakeup_chan] at hc
    split_ifs at hc
    exact hc
  | @full left hth hf ho =>
    have hth' : ∀ q, (((s.wakeup .nread).goto p (.writeFull left)).proc q).thread =
        if q = p then .writeFull left else (s.proc q).thread := by simp
    refine h.keep hth' (by rw [hth]; rfl) rfl (.inr (by rw [hth]; rfl)) (fun q w => by simp) (fun q ch hc => ?_) rfl
      fun w => rfl
    simp only [goto_chan, wakeup_chan] at hc
    split_ifs at hc
    exact hc
  | broken hth => exact h.leave (by rw [hth]; rfl)
  | store hth =>
    exact h.keep (fun q => goto_thread) (by rw [hth]; rfl) rfl (.inr (by rw [hth]; rfl)) (fun q w => goto_hasEnd)
      (fun q ch hc => goto_chan.symm.trans hc) rfl fun w => rfl
  | sleep hth hs hu _ => exact h.sleep (PipeThread.locks_of_sleepsOn hth) hs hu
  | resume hth hc hl hrun hu =>
    refine h.acquire hl hc ?_ fun w hw => h.ends p w (hu ▸ hw)
    rcases hrun with ⟨left, rfl⟩ | ⟨n, rfl⟩ <;> rfl
  | empty hth =>
    exact h.keep (fun q => goto_thread) (by rw [hth]; rfl) rfl (.inr (by rw [hth]; rfl)) (fun q w => goto_hasEnd)
      (fun q ch hc => goto_chan.symm.trans hc) rfl fun w => rfl
  | copy hth =>
    exact h.keep (fun q => goto_thread) (by rw [hth]; rfl) rfl (.inr (by rw [hth]; rfl)) (fun q w => goto_hasEnd)
      (fun q ch hc => goto_chan.symm.trans hc) rfl fun w => rfl
  | take hth =>
    exact h.keep (fun q => goto_thread) (by rw [hth]; rfl) rfl (.inr (by rw [hth]; rfl)) (fun q w => goto_hasEnd)
      (fun q ch hc => goto_chan.symm.trans hc) rfl fun w => rfl
  | @shut w hth hl =>
    have ha : Owners { s.goto p (.closing w) with lock := some p } :=
      h.acquire hl (h.chan_none (by rw [hth]; rfl)) rfl nofun
    refine ⟨ha.lock, ha.chan, ha.ends, fun w' hw q => ?_⟩
    by_cases hww : w' = w
    · rw [goto_hasEnd, hww]
      exact h.closed w (.inr ⟨p, hth⟩) q
    · refine ha.closed w' (hw.imp_left fun ho => ?_) q
      rwa [Pipe.shut_isOpen, if_neg hww] at ho
  | leave hth => exact h.leave (by rcases hth with hth | ⟨n, hth⟩ <;> rw [hth] <;> rfl)

theorem Owners.modify {f : PipeProc → PipeProc} (hth : (f (s.proc p)).thread = (s.proc p).thread)
    (hchan : ∀ ch, (f (s.proc p)).chan = some ch → (s.proc p).chan = some ch)
    (hends : ∀ w, (s.proc p).thread.uses = some w → (f (s.proc p)).hasEnd w = true)
    (hhad : ∀ w, (f (s.proc p)).hasEnd w = true → ∃ r, (s.proc r).hasEnd w = true) : Owners (s.modify p f) := by
  have hthread : ∀ q, ((s.modify p f).proc q).thread = (s.proc q).thread := fun q => by
    rw [modify_proc]
    split
    · next hq => rw [hq, hth]
    · rfl
  refine ⟨fun q => ?_, fun q ch hc => ?_, fun q w hu => ?_, fun w hw q => ?_⟩
  · rw [hthread]
    exact h.lock q
  · rw [hthread]
    rw [modify_proc] at hc
    split at hc
    · next hq => exact hq ▸ h.chan p ch (hchan ch hc)
    · exact h.chan q ch hc
  · rw [hthread] at hu
    rw [modify_proc]
    split
    · next hq => exact hends w (hq ▸ hu)
    · exact h.ends q w hu
  · simp only [hthread] at hw
    have hold := h.closed w hw
    rw [modify_proc]
    split
    · refine Bool.eq_false_iff.mpr fun hf => ?_
      obtain ⟨r, hr⟩ := hhad w hf
      simp [hold r] at hr
    · exact hold q

theorem Owners.close {w : Bool} (hi : (s.proc p).thread = .idle)
    (hlast : ¬∃ q, (s.proc q).hasEnd w = true) : Owners (s.goto p (.close w)) := by
  refine ⟨fun q => ?_, fun q ch hc => ?_, fun q w' hu => ?_, fun w' hw q => ?_⟩
  · rw [goto_thread]
    split
    · next hq => simpa [hq, hi, PipeThread.locks] using h.lock p
    · exact h.lock q
  · rw [goto_chan] at hc
    have hq : q ≠ p := by
      rintro rfl
      simpa [hi, PipeThread.sleptOn] using h.chan q ch hc
    rw [goto_thread, if_neg hq]
    exact h.chan q ch hc
  · rw [goto_hasEnd]
    rw [goto_thread] at hu
    split at hu
    · cases hu
    · exact h.ends q w' hu
  · rw [goto_hasEnd]
    by_cases hww : w' = w
    · rw [hww]
      exact Bool.eq_false_iff.mpr fun hq => hlast ⟨q, hq⟩
    · refine h.closed w' (hw.imp_right (Exists.imp fun r hr => ?_)) q
      rw [goto_thread] at hr
      split at hr
      · cases hr
        exact absurd rfl hww
      · exact hr

variable [Fintype P]

theorem Owners.next (hs : s.next l = some t) : Owners t := by
  cases l with
  | write p addr =>
    simp only [PipeUse.next, ite_none_right_eq_some] at hs
    obtain ⟨⟨hi, hw⟩, hs⟩ := hs
    obtain ⟨hl, rfl⟩ := acquire_some hs
    refine h.acquire hl (h.chan_none (by rw [hi]; rfl)) rfl fun w hu => ?_
    cases hu
    exact hw
  | read p n =>
    simp only [PipeUse.next, ite_none_right_eq_some] at hs
    obtain ⟨⟨hi, hr⟩, hs⟩ := hs
    obtain ⟨hl, rfl⟩ := acquire_some hs
    refine h.acquire hl (h.chan_none (by rw [hi]; rfl)) rfl fun w hu => ?_
    cases hu
    exact hr
  | close p w =>
    simp only [PipeUse.next, ite_none_right_eq_some] at hs
    obtain ⟨⟨hi, -⟩, hs⟩ := hs
    have hd : Owners (s.modify p (·.dropEnd w)) := by
      refine h.modify PipeProc.dropEnd_thread (fun ch hc => PipeProc.dropEnd_chan.symm.trans hc) (fun w hu => ?_)
        fun w' hw => ⟨p, ?_⟩
      · simp [hi, PipeThread.uses] at hu
      · exact PipeProc.hasEnd_of_dropEnd hw
    split at hs
    · cases hs
      exact hd
    · next hlast =>
      cases hs
      have hi' : ((s.modify p (·.dropEnd w)).proc p).thread = .idle := by
        rw [modify_proc, if_pos rfl, PipeProc.dropEnd_thread, hi]
      exact hd.close hi' hlast
  | fork p q =>
    simp only [PipeUse.next, ite_none_right_eq_some] at hs
    obtain ⟨⟨-, hi, -⟩, hs⟩ := hs
    cases hs
    refine h.modify rfl (fun ch hc => hc) (fun w hu => ?_) fun w hw => ⟨p, ?_⟩
    · simp [hi, PipeThread.uses] at hu
    · cases w <;> exact hw
  | kill p =>
    cases hs
    exact h.modify rfl (by simp) (fun w hu => h.ends p w hu) fun w hw => ⟨p, hw⟩
  | step p => exact h.turn (turn_inv hs)

end

/-- A killed writer that finds the pipe full, with its read end open, leaves no reader asleep. -/
def Heeds (s : PipeUse P) : Label P → Prop
  | .step p => ¬((s.proc p).thread.storing = true ∧ s.pipe.Full ∧ s.pipe.readopen = true ∧ (s.proc p).killed = true ∧
      ∃ q, (s.proc q).chan = some .nread)
  | _ => True

instance [Fintype P] (s : PipeUse P) : DecidablePred s.Heeds
  | .step _ => inferInstanceAs (Decidable (¬_))
  | .write .. | .read .. | .close .. | .fork .. | .kill _ => instDecidableTrue

theorem Wakes.move (h : Wakes s) (hth : ∀ q, (t.proc q).thread = if q = p then th else (s.proc q).thread)
    (hpipe : t.pipe = s.pipe) (habout : ∀ ch, th.sleepsOn = some ch → s.pipe.Waits ch)
    (hchan : ∀ q ch, (t.proc q).chan = some ch → s.pipe.Waits ch) : Wakes t where
  about q ch hs := by
    rw [hpipe]
    rw [hth] at hs
    split at hs
    · exact habout ch hs
    · exact h.about q ch hs
  asleep q ch hc := .inl (hpipe ▸ hchan q ch hc)

section

variable (h : Wakes s)
include h

theorem Wakes.leave (hchan : ∀ q ch, (s.proc q).chan = some ch → s.pipe.Waits ch) : Wakes (s.leave p) :=
  h.move (fun _ => goto_thread) rfl nofun fun q ch hc => hchan q ch (goto_chan.symm.trans hc)

theorem Wakes.woken (ho : Owners s) (hw : (s.proc p).thread.wakes = some ch) {ch' : PipeChan}
    (hc : (((s.wakeup ch).goto p th).proc q).chan = some ch') : s.pipe.Waits ch' := by
  rw [goto_chan, wakeup_chan] at hc
  split_ifs at hc with hne
  refine (h.held ho (PipeThread.locks_of_wakes hw) hc).resolve_right fun hw' => hne ?_
  rw [hc, ← hw', hw]

theorem Wakes.changes (ho : Owners s) (hp : (s.proc p).thread.locks = true)
    (hw : (s.proc p).thread.wakes = some ch) (hw' : th.wakes = some ch) (hlock : t.lock = s.lock)
    (hproc : t.proc = (s.goto p th).proc) (hpipe : ∀ ch', ch' ≠ ch → s.pipe.Waits ch' → t.pipe.Waits ch') :
    Wakes t := by
  refine Wakes.owe (hlock.trans ((ho.lock p).mpr hp)) (fun q => hproc ▸ goto_thread) hw' (ho.others hp)
    fun q ch' hc hne => ?_
  rw [hproc, goto_chan] at hc
  exact hpipe ch' hne ((h.held ho hp hc).resolve_right fun hx => hne (some.inj (hx.symm.trans hw)))

theorem Wakes.turn (ho : Owners s) (hC : Heeds s (.step p)) (ht : Turn s p t) : Wakes t := by
  cases ht with
  | @wake ch hw =>
    have hth : ∀ q, (((s.wakeup ch).goto p .leave).proc q).thread = if q = p then .leave else (s.proc q).thread := by
      simp
    exact h.move hth rfl (by rintro _ ⟨⟩) fun q ch' hc => h.woken ho hw hc
  | @full left hth hf hro =>
    have hth' : ∀ q, (((s.wakeup .nread).goto p (.writeFull left)).proc q).thread =
        if q = p then .writeFull left else (s.proc q).thread := by simp
    refine h.move hth' rfl (fun ch hs => ?_) fun q ch' hc => h.woken ho (by rw [hth]; rfl) hc
    cases hs
    exact ⟨hf, hro⟩
  | @broken b left hth hf hk =>
    refine h.leave fun q ch hc => (h.held ho (p := p) (by rw [hth]; rfl) hc).resolve_right fun hw => ?_
    rw [hth] at hw
    cases hw
    -- A sleeping reader has its end open, so the writer was killed.
    have hslept := ho.chan q _ hc
    have huses : (s.proc q).thread.uses = some false := by
      cases hx : (s.proc q).thread <;> simp_all [PipeThread.sleptOn, PipeThread.uses]
    have hend := ho.ends q false huses
    have hro : s.pipe.readopen = true := by
      refine Bool.eq_true_of_not_eq_false fun hcl => ?_
      simp [ho.closed false (.inl hcl) q] at hend
    refine hC ⟨by rw [hth]; rfl, hf, hro, ?_, q, hc⟩
    simpa [hro] using hk
  | @store b left hth hf =>
    refine h.changes ho (p := p) (by rw [hth]; rfl) (by rw [hth]; rfl) rfl rfl rfl fun ch hne hw => ?_
    cases ch with
    | nread => exact absurd rfl hne
    | nwrite => exact absurd hw.1 hf
  | @sleep ch th hth hs hu hl =>
    have hp := PipeThread.locks_of_sleepsOn hth
    refine h.move (fun q => sleep_thread) rfl (fun ch' hs' => ?_) fun q ch' hc => ?_
    · cases th <;> simp_all [PipeThread.sleptOn, PipeThread.sleepsOn]
    · rw [sleep_chan] at hc
      split at hc
      · cases hc
        exact h.about p ch hth
      · refine h.waits ho hp ?_ hc
        cases hx : (s.proc p).thread <;> simp_all [PipeThread.wakes, PipeThread.sleepsOn]
  | @resume th hth hc hl hrun hu =>
    refine h.move (fun q => goto_thread) rfl (fun ch hs => ?_) fun q ch hq => h.free hl (goto_chan.symm.trans hq)
    rcases hrun with ⟨left, rfl⟩ | ⟨n, rfl⟩ <;> cases hs
  | @empty n hth hw =>
    refine h.move (fun q => goto_thread) rfl (fun ch hs => ?_) fun q ch hq =>
      h.waits ho (p := p) (by rw [hth]; rfl) (by rw [hth]; rfl) (goto_chan.symm.trans hq)
    cases hs
    exact hw
  | @copy n hth =>
    exact h.move (fun q => goto_thread) rfl (by rintro _ ⟨⟩) fun q ch hq =>
      h.waits ho (p := p) (by rw [hth]; rfl) (by rw [hth]; rfl) (goto_chan.symm.trans hq)
  | @take n hth he =>
    refine h.changes ho (p := p) (by rw [hth]; rfl) (by rw [hth]; rfl) rfl rfl rfl fun ch hne hw => ?_
    cases ch with
    | nread => exact absurd hw.1 he
    | nwrite => exact absurd rfl hne
  | @shut w hth hl =>
    have hnone : ∀ q ≠ p, (s.proc q).thread.sleepsOn = none := fun q _ => by
      cases hs : (s.proc q).thread.sleepsOn with
      | none => rfl
      | some ch => simpa [hl] using (ho.lock q).mpr (PipeThread.locks_of_sleepsOn hs)
    have hw : (PipeThread.closing w).wakes = some (if w then .nread else .nwrite) := by cases w <;> rfl
    refine Wakes.owe rfl (fun q => goto_thread) hw hnone fun q ch hc hne => ?_
    have hch := h.free hl (goto_chan.symm.trans hc)
    cases w <;> cases ch
    · exact hch
    · exact absurd rfl hne
    · exact absurd rfl hne
    · exact hch
  | leave hth =>
    refine h.leave fun q ch hc => h.waits ho (p := p) ?_ ?_ hc
    all_goals rcases hth with hth | ⟨n, hth⟩ <;> rw [hth] <;> rfl

theorem Wakes.modify {f : PipeProc → PipeProc} (hth : (f (s.proc p)).thread = (s.proc p).thread)
    (hchan : ∀ ch, (f (s.proc p)).chan = some ch → (s.proc p).chan = some ch) : Wakes (s.modify p f) := by
  refine h.keep rfl rfl (fun q => ?_) fun q ch hc => ?_
  · rw [modify_proc]
    split
    · next hq => rw [hq, hth]; exact ⟨rfl, rfl⟩
    · exact ⟨rfl, rfl⟩
  · rw [modify_proc] at hc
    split at hc
    · next hq => exact hq ▸ hchan ch hc
    · exact hc

variable [Fintype P]

theorem Wakes.next (ho : Owners s) (hC : Heeds s l) (hs : s.next l = some t) : Wakes t := by
  cases l with
  | write p _ | read p _ =>
    simp only [PipeUse.next, ite_none_right_eq_some] at hs
    obtain ⟨hl, rfl⟩ := acquire_some hs.2
    exact h.move (fun q => goto_thread) rfl (by rintro _ ⟨⟩) fun q ch hq => h.free hl (goto_chan.symm.trans hq)
  | close p w =>
    simp only [PipeUse.next, ite_none_right_eq_some] at hs
    obtain ⟨⟨hi, -⟩, hs⟩ := hs
    have hd : Wakes (s.modify p (·.dropEnd w)) :=
      h.modify PipeProc.dropEnd_thread fun ch hc => PipeProc.dropEnd_chan.symm.trans hc
    split at hs
    · cases hs
      exact hd
    · cases hs
      refine hd.keep rfl rfl (fun q => ?_) fun q ch hc => goto_chan.symm.trans hc
      rw [goto_thread]
      split
      · next hq => rw [hq, modify_proc, if_pos rfl, PipeProc.dropEnd_thread, hi]; exact ⟨rfl, rfl⟩
      · exact ⟨rfl, rfl⟩
  | fork p q =>
    simp only [PipeUse.next, ite_none_right_eq_some] at hs
    cases hs.2
    exact h.modify rfl fun ch hc => hc
  | kill p =>
    cases hs
    exact h.modify rfl (by simp)
  | step p => exact h.turn ho hC (turn_inv hs)

end

variable [Fintype P]

theorem reach_wakes (h : (machine P).ReachWhere Heeds s) : Owners s ∧ Wakes s := by
  refine h.invariant (I := fun s => Owners s ∧ Wakes s) (fun s (hs : Fresh s) => ?_) fun s l t hi hC hst =>
    ⟨hi.1.next hst, hi.2.next hi.1 hC hst⟩
  refine ⟨⟨fun q => ?_, fun q ch hc => ?_, fun q w hu => ?_, fun w hw q => ?_⟩, fun q ch hc => ?_, fun q ch hc => ?_⟩
  · simp [hs.lock, hs.idle, PipeThread.locks]
  · simp [hs.awake] at hc
  · simp [hs.idle, PipeThread.uses] at hu
  · rcases hw with hw | ⟨r, hr⟩
    · cases w <;> simp [Pipe.isOpen, hs.readopen, hs.writeopen] at hw
    · simp [hs.idle] at hr
  · simp [hs.idle, PipeThread.sleepsOn] at hc
  · simp [hs.awake] at hc

/-- A step that does not heed the sleeping readers ends with the lock free and a reader asleep in front of a full
    pipe. -/
theorem lost_of_not_heeds (hC : ¬Heeds s l) (hs : s.next l = some t) : t.lock = none ∧ ¬NoLostWakeup t := by
  cases l with
  | step p =>
    obtain ⟨hst, hf, hro, hk, q, hq⟩ := not_not.mp hC
    have ht : t = s.leave p := by
      simp only [next, turn] at hs
      cases hth : (s.proc p).thread with
      | write left =>
        cases left with
        | nil => simp [hth, PipeThread.storing] at hst
        | cons b left =>
          simp only [hth, hf, hk, if_true, or_true] at hs
          exact (some.inj hs).symm
      | _ => simp [hth, PipeThread.storing] at hst
    subst ht
    refine ⟨rfl, fun hno => Pipe.not_empty_of_full hf ?_⟩
    exact (noLostWakeup_iff.mp hno q .nread (goto_chan.trans hq)).1
  | _ => exact absurd trivial hC

/-- In every run in which a killed writer that finds the pipe full leaves no reader asleep, whenever the lock is free
    no process sleeps although what it waits for has happened; and a step keeps this exactly when it is of that kind. -/
theorem no_lost_wakeup (h : (machine P).ReachWhere Heeds s) : (s.lock = none → NoLostWakeup s) ∧
      ∀ l t, s.next l = some t → (Heeds s l ↔ (t.lock = none → NoLostWakeup t)) := by
  have key : ∀ {s : PipeUse P}, (machine P).ReachWhere Heeds s → s.lock = none → NoLostWakeup s := fun h hl =>
    noLostWakeup_iff.mpr fun q ch hc => (reach_wakes h).2.free hl hc
  refine ⟨key h, fun l t hst => ⟨fun hC => key (.step h hC hst), fun ht => ?_⟩⟩
  by_contra hC
  obtain ⟨hl, hno⟩ := lost_of_not_heeds hC hst
  exact hno (ht hl)

theorem no_lost_wakeup_threeBytes : ∃ s, (machine (Fin 2)).ReachWhere Heeds s ∧ s.lock = none ∧
    s.pipe.nread ≠ s.pipe.nwrite ∧ NoLostWakeup s := by
  obtain ⟨s, hs, h⟩ := exists_of_any
      (o := threeBytes.foldlM (fun (s : PipeUse (Fin 2)) l => if s.Heeds l then s.next l else none) twoEnds)
      (p := fun s => s.lock = none ∧ s.pipe.nread ≠ s.pipe.nwrite) (by decide +kernel)
  have hr : (machine (Fin 2)).ReachWhere Heeds s := by
    refine .foldlM (fun s l t hl => ?_) (.init twoEnds_fresh) hs
    split_ifs at hl with hC
    exact ⟨hC, hl⟩
  exact ⟨s, hr, h.1, h.2, (no_lost_wakeup hr).1 h.1⟩

/-- The reader goes to sleep; the writer begins to write 513 bytes, is killed, and goes on to the end of the call. -/
def killedWriter : List (Label (Fin 2)) :=
  [.read 0 1, .step 0, .step 0, .write 1 (List.replicate 513 7), .kill 1] ++ List.replicate 513 (.step 1)

/-- The writer has returned, the pipe is full, and the reader is still asleep. -/
theorem killedWriter_lost : ∃ s, killedWriter.foldlM next twoEnds = some s ∧ (machine (Fin 2)).Reach s ∧ s.lock = none ∧
    (s.proc 1).thread = .idle ∧ (s.proc 0).chan = some .nread ∧ s.pipe.nread ≠ s.pipe.nwrite ∧ ¬NoLostWakeup s := by
  obtain ⟨s, hs, h1, h2, h3, h4⟩ := exists_of_any (o := killedWriter.foldlM next twoEnds)
      (p := fun s => s.lock = none ∧ (s.proc 1).thread = .idle ∧ (s.proc 0).chan = some .nread ∧
        s.pipe.nread ≠ s.pipe.nwrite) (by decide +kernel)
  exact ⟨s, hs, .foldlM (fun _ _ _ => id) (.init twoEnds_fresh) hs, h1, h2, h3, h4,
    fun hno => (hno 0).1 h3 (.inl h4)⟩

end PipeUse
end Xv6
