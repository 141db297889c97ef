import Xv6.Spinlock

/-! `ncli` is the count of the thread that a CPU runs, and `intena` the flag with which it entered its outermost
    `pushcli`. Both go with the thread from CPU to CPU, as `sched` keeps `intena`. -/

namespace Xv6
open Function (update update_of_ne update_self)

namespace Instr

variable {T L : Type}

def chooses : Instr T L → Bool
  | pick | resume _ => true
  | _ => false

/-- The levels of `pushcli` after some code that starts with `n` of them; none if it does not keep to its levels. -/
@[simp] def levels : Nat → List (Instr T L) → Option Nat
  | n, [] => some n
  | n, sti :: is => if n = 0 then levels n is else none
  | n, pushcli :: is => levels (n + 1) is
  | 0, popcli :: _ | 0, pick :: _ => none
  | n + 1, popcli :: is | n + 1, pick :: is => levels n is
  | n, resume _ :: is => if n = 1 ∧ ∀ i ∈ is, i.chooses = false then levels n is else none
  | n, holds _ _ :: is | n, lock _ :: is | n, unlock _ :: is | n, swtch :: is => levels n is

end Instr

namespace Cli
open Instr Option

variable {C T L : Type} {ptable : L} {s s' : Cli C T L} {c : C} {k : C ⊕ T} {f f' : CpuFlags} {th th' : Kthread T L}
  {todo rest : List (Instr T L)} {i : Instr T L} {t : T} {lock lock' : L → Option C}

/-! ### What is known of a thread -/

def Ahead (todo : List (Instr T L)) : Prop := ∃ i ∈ todo, i.chooses = true

/-- The code of the scheduler itself, not of a handler that runs in its thread. -/
def Base (k : C ⊕ T) (below : List (List (Instr T L) × Option Bool)) : Prop := k.isLeft = true ∧ below = []

structure Runs (k : C ⊕ T) (n : Nat) (todo : List (Instr T L)) (eflags : Option Bool)
    (below : List (List (Instr T L) × Option Bool)) : Prop where
  levels : ∃ m, levels n todo = some m ∧ (Base k below → m = 0)
  own : Ahead todo → Base k below
  reads : eflags.isSome → todo.head? = some .pushcli

/-- The code that interrupts have found was at no level. The scheduler had its interrupts on. -/
def Frames (k : C ⊕ T) : List (List (Instr T L) × Option Bool) → Prop
  | [] => True
  | f :: below => Runs k 0 f.1 f.2 below ∧ (Ahead f.1 → ∀ b ∈ f.2, b = true) ∧ Frames k below

def pending (th : Kthread T L) : List Bool := th.below.flatMap (·.2.toList)

def current (f : CpuFlags) (th : Kthread T L) : List Bool :=
  if 0 < th.depth then [th.intena.getD f.intena] else th.eflags.toList

structure OnCpu (f : CpuFlags) (k : C ⊕ T) (th : Kthread T L) : Prop where
  runs : Runs k th.depth th.todo th.eflags th.below
  frames : Frames k th.below
  saved : th.intena.isSome → th.todo.head? = some .swtch ∧ 0 < th.depth
  depth : f.ncli = th.depth
  off : 0 < th.depth → f.iflag = false
  entries : k.isRight → th.entries = current f th ++ pending th
  /-- The scheduler takes the lock with the interrupts on. -/
  intena : Ahead th.todo → 0 < th.depth → f.intena = true
  eflags : Ahead th.todo → th.depth = 0 → ∀ b ∈ th.eflags, b = true
  iflag : Ahead th.todo → th.depth = 0 → th.todo.head? ≠ some .sti → f.iflag = true

/-- A thread that no CPU runs: it was switched out, or is new. -/
structure Parked (k : C ⊕ T) (th : Kthread T L) : Prop where
  depth : th.depth = 1
  eflags : th.eflags = none
  runs : Runs k 1 th.todo none th.below
  frames : Frames k th.below
  ahead : ¬Ahead th.todo
  saved : th.intena.isSome → th.todo.head? = some .swtch
  entries : k.isRight → th.entries = th.intena.getD true :: pending th

structure Inv (s : Cli C T L) : Prop where
  cpu : ∀ c, OnCpu (s.cpu c) (s.who c) (s.thread (s.who c))
  parked : ∀ k, (∀ c, s.who c ≠ k) → Parked k (s.thread k)
  single : ∀ c c', s.who c = s.who c' → c = c'

/-! ### One instruction -/

attribute [local simp] holding myproc acquire release Instr.sched Instr.scheduler picked chooses Ahead

theorem OnCpu.eflags_none (h : OnCpu f k th) (ht : th.todo.head? ≠ some .pushcli) : th.eflags = none :=
  not_isSome_iff_eq_none.mp fun he => ht (h.runs.reads he)

theorem OnCpu.intena_none (h : OnCpu f k th) (ht : th.todo.head? ≠ some .swtch) : th.intena = none :=
  not_isSome_iff_eq_none.mp fun he => ht (h.saved he).1

theorem Ahead.cons (h : Ahead rest) : Ahead (i :: rest) := h.imp fun _ hi => ⟨List.mem_cons_of_mem _ hi.1, hi.2⟩

section

variable (h : OnCpu f k th)
include h

theorem OnCpu.pass (ht : th.todo = i :: rest) (hl : ∀ n, levels n (i :: rest) = levels n rest)
    (hi : i ≠ .pushcli ∧ i ≠ .swtch ∧ i ≠ .sti) : OnCpu f k { th with todo := rest } := by
  have he := h.eflags_none (by simp [ht, hi.1])
  have hn := h.intena_none (by simp [ht, hi.2.1])
  have ha : Ahead rest → Ahead th.todo := fun ha => ht ▸ ha.cons
  obtain ⟨m, hm, hbase⟩ := h.runs.levels
  rw [ht, hl] at hm
  exact ⟨⟨⟨m, hm, hbase⟩, fun hr => h.runs.own (ha hr), by simp [he]⟩, h.frames, by simp [hn], h.depth, h.off,
    h.entries,
    fun hr => h.intena (ha hr), fun hr => h.eflags (ha hr), fun hr hz _ => h.iflag (ha hr) hz (by simp [ht, hi.2.2])⟩

theorem OnCpu.sti (ht : th.todo = .sti :: rest) : OnCpu { f with iflag := true } k { th with todo := rest } := by
  have he := h.eflags_none (by simp [ht])
  have hn := h.intena_none (by simp [ht])
  obtain ⟨m, hm, hbase⟩ := h.runs.levels
  rw [ht, levels] at hm
  split_ifs at hm with hz
  exact ⟨⟨⟨m, hm, hbase⟩, fun hr => h.runs.own (ht ▸ hr.cons), by simp [he]⟩, h.frames, by simp [hn], h.depth,
    by simp [hz], h.entries, by simp [hz], by simp [he], fun _ _ _ => rfl⟩

theorem OnCpu.readeflags (ht : th.todo = .pushcli :: rest) (he : th.eflags = none) : OnCpu f k { th with
      eflags := some f.iflag, entries := if th.depth = 0 then f.iflag :: th.entries else th.entries } := by
  refine ⟨⟨h.runs.levels, h.runs.own, fun _ => by simp [ht]⟩, h.frames, h.saved, h.depth, h.off, fun hr => ?_, h.intena,
    fun ha hz b hb => ?_, h.iflag⟩
  · have hent := h.entries hr
    by_cases hz : th.depth = 0
    · simp [hent, current, pending, hz, he]
    · simp [hent, current, pending, hz, Nat.pos_of_ne_zero hz]
  · cases hb
    exact h.iflag ha hz (by simp [ht])

theorem OnCpu.pushcli (ht : th.todo = .pushcli :: rest) {e : Bool} (he : th.eflags = some e) :
    OnCpu { ncli := f.ncli + 1, intena := if f.ncli = 0 then e else f.intena, iflag := false } k
      { th with todo := rest, eflags := none, depth := th.depth + 1 } := by
  have hn := h.intena_none (by simp [ht])
  have hd := h.depth
  have ha : Ahead rest → Ahead th.todo := fun ha => ht ▸ ha.cons
  obtain ⟨m, hm, hbase⟩ := h.runs.levels
  rw [ht, levels] at hm
  refine ⟨⟨⟨m, hm, hbase⟩, fun hr => h.runs.own (ha hr), by simp⟩, h.frames, by simp [hn], by simp [hd], fun _ => rfl,
    fun hr => ?_, fun hr _ => ?_, by simp, by simp⟩
  · have hent := h.entries hr
    by_cases hz : th.depth = 0
    · simp [hent, current, pending, hz, hd, hn, he]
    · simp [hent, current, pending, hz, hd, Nat.pos_of_ne_zero hz]
  · by_cases hz : th.depth = 0
    · simpa [hd, hz] using h.eflags (ha hr) hz e he
    · simpa [hd, hz] using h.intena (ha hr) (Nat.pos_of_ne_zero hz)

theorem OnCpu.popcli (ht : th.todo = .popcli :: rest) (hif : f.iflag = false) :
    OnCpu { f with ncli := f.ncli - 1, iflag := if f.ncli - 1 = 0 ∧ f.intena then true else f.iflag } k
      { th with todo := rest, depth := th.depth - 1, entries := if th.depth = 1 then th.entries.tail
      else th.entries } := by
  have he := h.eflags_none (by simp [ht])
  have hn := h.intena_none (by simp [ht])
  have hd := h.depth
  have ha : Ahead rest → Ahead th.todo := fun ha => ht ▸ ha.cons
  obtain ⟨m, hm, hbase⟩ := h.runs.levels
  rw [ht] at hm
  cases hdepth : th.depth with
  | zero => simp [hdepth] at hm
  | succ n =>
    rw [hdepth] at hm hd
    have hpos : 0 < th.depth := by omega
    have hncli : f.ncli - 1 = n := by omega
    refine ⟨⟨⟨m, hm, hbase⟩, fun hr => h.runs.own (ha hr), by simp [he]⟩, h.frames, by simp [hn], hncli, fun hp => ?_,
      fun hr => ?_, fun hr _ => h.intena (ha hr) hpos, by simp [he], fun hr hz _ => ?_⟩
    · have hp : 0 < n := hp
      simp [hncli, hif, Nat.ne_of_gt hp]
    · have hent := h.entries hr
      by_cases hz : n = 0
      · simp [hent, current, pending, hdepth, hz, he]
      · simp [hent, current, pending, hdepth, hz, Nat.pos_of_ne_zero hz]
    · have hz : n = 0 := hz
      simp [hncli, hz, h.intena (ha hr) hpos]

theorem OnCpu.restore (ht : th.todo = .swtch :: rest) (hk : k.isRight) {b : Bool} (hb : th.intena = some b) :
    OnCpu { f with intena := b } k { th with todo := rest, intena := none } := by
  have he := h.eflags_none (by simp [ht])
  have hpos := (h.saved (by simp [hb])).2
  have ha : ¬Ahead rest := fun hr => by
    have := (h.runs.own (ht ▸ hr.cons)).1
    cases k <;> simp at this hk
  obtain ⟨m, hm, hbase⟩ := h.runs.levels
  rw [ht] at hm
  refine ⟨⟨⟨m, by simpa using hm, hbase⟩, fun hr => absurd hr ha, by simp [he]⟩, h.frames, by simp, h.depth, h.off,
    fun hr => ?_, fun hr => absurd hr ha, fun hr => absurd hr ha, fun hr => absurd hr ha⟩
  have hent := h.entries hr
  simpa [current, pending, hpos, hb] using hent

theorem OnCpu.exec [DecidableEq C] [DecidableEq L] (ht : th.todo = i :: rest) (hk : i = .swtch → k.isRight)
    (he : exec lock c f th rest i = some (f', th', lock')) : OnCpu f' k th' := by
  cases i with
  | sti =>
    cases he
    exact h.sti ht
  | pushcli =>
    simp only [Cli.exec] at he
    split at he
    · next hn =>
      cases he
      exact h.readeflags ht hn
    · next hs =>
      cases he
      exact h.pushcli ht hs
  | popcli =>
    simp only [Cli.exec] at he
    split at he
    · cases he
    · next hif =>
      cases he
      exact h.popcli ht (by simpa using hif)
  | holds l wanted | lock l =>
    simp only [Cli.exec] at he
    split at he <;> cases he
    exact h.pass ht (fun n => by simp) (by simp)
  | unlock l =>
    cases he
    exact h.pass ht (fun n => by simp) (by simp)
  | swtch =>
    obtain ⟨b, hb, he⟩ := map_eq_some_iff.mp he
    cases he
    exact h.restore ht (hk rfl) hb
  | pick | resume => cases he

end

/-! ### The other steps of a CPU -/

theorem OnCpu.enter (h : OnCpu f k th) (ht : th.todo = [])
    (hl : ∃ m, levels th.depth todo = some m ∧ (Base k th.below → m = 0))
    (hown : Ahead todo → Base k th.below ∧ th.depth = 0 ∧ todo.head? = some .sti) :
    OnCpu f k { th with todo := todo } := by
  have he := h.eflags_none (by simp [ht])
  have hn := h.intena_none (by simp [ht])
  exact ⟨⟨hl, fun ha => (hown ha).1, by simp [he]⟩, h.frames, by simp [hn], h.depth, h.off, h.entries,
    fun ha hp => absurd (hown ha).2.1 (Nat.ne_of_gt hp), by simp [he], fun ha _ hs => absurd (hown ha).2.2 hs⟩

theorem OnCpu.picked (h : OnCpu f k th) (ht : th.todo = [.pick]) (t : Option T) :
    OnCpu f k { th with todo := picked ptable t } := by
  have he := h.eflags_none (by simp [ht])
  have hn := h.intena_none (by simp [ht])
  have ha : Ahead th.todo := ⟨.pick, by simp [ht]⟩
  have hbase := h.runs.own ha
  have hone : th.depth = 1 := by
    obtain ⟨m, hm, hzero⟩ := h.runs.levels
    rw [ht] at hm
    cases hd : th.depth with
    | zero => simp [hd] at hm
    | succ n =>
      have := hzero hbase
      simp [hd] at hm
      omega
  refine ⟨⟨⟨0, ?_, fun _ => rfl⟩, fun _ => hbase, by simp [he]⟩, h.frames, by simp [hn], h.depth, h.off, h.entries,
    fun _ => h.intena ha, by simp [hone], by simp [hone]⟩
  cases t <;> simp [hone]

theorem OnCpu.depth_zero (h : OnCpu f k th) (hf : f.iflag = true) : th.depth = 0 := by
  by_contra hz
  simp [h.off (Nat.pos_of_ne_zero hz)] at hf

theorem OnCpu.interrupt (h : OnCpu f k th) (hf : f.iflag = true) : OnCpu { f with iflag := false } k
    { th with todo := [], eflags := none, below := (th.todo, th.eflags) :: th.below } := by
  have hz := h.depth_zero hf
  have hn : th.intena = none := not_isSome_iff_eq_none.mp fun hs => by simpa [hz] using (h.saved hs).2
  have hruns := h.runs
  rw [hz] at hruns
  refine ⟨⟨by simp [hz, Base], by simp, by simp⟩, ⟨hruns, fun ha => h.eflags ha hz, h.frames⟩, by simp [hn], h.depth,
    fun _ => rfl, fun hr => ?_, by simp, by simp, by simp⟩
  have hent := h.entries hr
  simpa [current, hz, pending] using hent

theorem OnCpu.iret {below : List (List (Instr T L) × Option Bool)} {e : Option Bool} (h : OnCpu f k th)
    (ht : th.todo = []) (hz : th.depth = 0) (hbelow : th.below = (todo, e) :: below) :
    OnCpu { f with iflag := true } k { th with todo := todo, eflags := e, below := below } := by
  have he := h.eflags_none (by simp [ht])
  have hn := h.intena_none (by simp [ht])
  obtain ⟨hruns, hread, hframes⟩ : Runs k 0 todo e below ∧ (Ahead todo → ∀ b ∈ e, b = true) ∧ Frames k below := by
    have := h.frames
    rwa [hbelow] at this
  refine ⟨by rwa [hz], hframes, by simp [hn], h.depth, by simp [hz], fun hr => ?_, by simp [hz], fun ha _ => hread ha,
    fun _ _ _ => rfl⟩
  have hent := h.entries hr
  simpa [current, hz, he, pending, hbelow] using hent

theorem Parked.onCpu (h : Parked k th) (hncli : f.ncli = 1) (hif : f.iflag = false)
    (hint : k.isRight → f.intena = true) : OnCpu f k th := by
  have hd := h.depth
  refine ⟨by rw [hd, h.eflags]; exact h.runs, h.frames, fun hs => ⟨h.saved hs, by simp [hd]⟩, by simp [hncli, hd],
    fun _ => hif, fun hr => ?_, fun ha => absurd ha h.ahead, fun ha => absurd ha h.ahead, fun ha => absurd ha h.ahead⟩
  rw [h.entries hr, current, hd, hint hr]
  rfl

theorem parked_forkret : Parked (.inr t : C ⊕ T) (.forkret ptable) :=
  ⟨rfl, rfl, ⟨by simp [Kthread.forkret, Base], by simp [Kthread.forkret], by simp⟩, trivial, by simp [Kthread.forkret],
    by simp [Kthread.forkret], fun _ => rfl⟩

/-! ### Steps of the kernel -/

theorem who_none (h : s.on c = none) : s.who c = .inl c := by simp [who, h]

theorem who_some (h : s.on c = some t) : s.who c = .inr t := by simp [who, h]

theorem who_ne [DecidableEq T] [Fintype C] (h : s.parked t = true) (c : C) : s.who c ≠ .inr t := by
  have hc : s.on c ≠ some t := decide_eq_true_iff.mp h c
  cases hon : s.on c with
  | none => simp [who_none hon]
  | some t' =>
    rw [who_some hon]
    rintro ⟨⟩
    exact hc hon

variable [DecidableEq C]

theorem Inv.step (h : Inv s) (c : C) (hon : ∀ c', c' ≠ c → s'.on c' = s.on c')
    (hcpu : ∀ c', c' ≠ c → s'.cpu c' = s.cpu c')
    (hth : ∀ c', c' ≠ c → s'.thread (s.who c') = s.thread (s.who c')) (hnew : ∀ c', c' ≠ c → s.who c' ≠ s'.who c)
    (hc : OnCpu (s'.cpu c) (s'.who c) (s'.thread (s'.who c)))
    (hparked : ∀ k, (∀ c', s'.who c' ≠ k) → Parked k (s'.thread k)) : Inv s' := by
  have hwho : ∀ c', c' ≠ c → s'.who c' = s.who c' := fun c' hc' => by simp [who, hon c' hc']
  refine ⟨fun c' => ?_, hparked, fun a b hab => ?_⟩
  · by_cases hc' : c' = c
    · exact hc' ▸ hc
    · rw [hcpu c' hc', hwho c' hc', hth c' hc']
      exact h.cpu c'
  · by_cases ha : a = c <;> by_cases hb : b = c
    · rw [ha, hb]
    · rw [ha, hwho b hb] at hab
      exact absurd hab.symm (hnew b hb)
    · rw [hb, hwho a ha] at hab
      exact absurd hab (hnew a ha)
    · rw [hwho a ha, hwho b hb] at hab
      exact h.single a b hab

variable [DecidableEq T]

theorem Inv.goesOn (h : Inv s) (hc : OnCpu f' (s.who c) th') :
    Inv { s.setThread c th' with cpu := update s.cpu c f', lock := lock' } := by
  have hother : ∀ c', c' ≠ c → s.who c' ≠ s.who c := fun c' hc' he => hc' (h.single c' c he)
  refine h.step c (fun _ _ => rfl) (fun c' hc' => update_of_ne hc' _ _)
    (fun c' hc' => update_of_ne (hother c' hc') _ _) hother ?_ fun k hk => ?_
  · change OnCpu (update s.cpu c f' c) (s.who c) (update s.thread (s.who c) th' (s.who c))
    rwa [update_self, update_self]
  · have hk : ∀ c', s.who c' ≠ k := hk
    change Parked k (update s.thread (s.who c) th' k)
    rw [update_of_ne (hk c).symm]
    exact h.parked k hk

theorem Inv.enter (h : Inv s) (hc : OnCpu (s.cpu c) (s.who c) th') : Inv (s.setThread c th') := by
  have h' : Inv { s.setThread c th' with cpu := update s.cpu c (s.cpu c), lock := s.lock } := h.goesOn hc
  simpa [setThread] using h'

theorem Inv.switch (h : Inv s) {o : Option T} (hpark : Parked (s.who c) th')
    (hfree : ∀ c', s.who c' ≠ o.elim (.inl c) .inr) (hint : o.isSome → (s.cpu c).intena = true)
    (hncli : (s.cpu c).ncli = 1) (hif : (s.cpu c).iflag = false) :
    Inv { s.setThread c th' with on := update s.on c o } := by
  let s' : Cli C T L := { s.setThread c th' with on := update s.on c o }
  have hon : ∀ c', c' ≠ c → s'.on c' = s.on c' := fun c' hc' => update_of_ne hc' _ _
  have hnew : s'.who c = o.elim (.inl c) .inr := by cases o <;> simp [s', who]
  have hth : ∀ k, k ≠ s.who c → s'.thread k = s.thread k := fun k hk => update_of_ne hk _ _
  change Inv s'
  refine h.step c hon (fun _ _ => rfl) (fun c' hc' => hth _ fun he => hc' (h.single c' c he))
    (fun c' _ => hnew ▸ hfree c') ?_ fun k hk => ?_
  · rw [hnew, hth _ (hfree c).symm]
    refine (h.parked _ hfree).onCpu hncli hif fun hr => hint ?_
    cases o <;> simp at hr ⊢
  · by_cases hk' : k = s.who c
    · subst hk'
      change Parked _ (update s.thread (s.who c) th' (s.who c))
      rwa [update_self]
    · rw [hth k hk']
      refine h.parked k fun c' hc' => ?_
      by_cases hcc : c' = c
      · exact hk' (hcc ▸ hc'.symm)
      · exact hk c' (by rw [← hc', who, who, hon c' hcc])

theorem Inv.swtch (h : Inv s) (hon : s.on c = some t) (ht : (s.thread (s.who c)).todo = .swtch :: rest)
    (hn : (s.thread (s.who c)).intena = none) (hncli : (s.cpu c).ncli = 1) (hif : (s.cpu c).iflag = false) :
    Inv { s.setThread c { s.thread (s.who c) with intena := some (s.cpu c).intena }
    with on := update s.on c none } := by
  have hc := h.cpu c
  have hd : (s.thread (s.who c)).depth = 1 := by
    have := hc.depth
    omega
  have he := hc.eflags_none (by simp [ht])
  have hruns := hc.runs
  rw [hd, he] at hruns
  refine h.switch ⟨hd, he, hruns, hc.frames, fun ha => ?_, fun _ => by simp [ht], fun hr => ?_⟩ (fun c' hw => ?_)
    (by simp) hncli hif
  · simpa [who_some hon] using (hc.runs.own ha).1
  · rw [hc.entries hr, current, hd, hn]
    rfl
  · cases hon' : s.on c' with
    | none =>
      rw [who_none hon'] at hw
      cases hw
      simp [hon] at hon'
    | some t' => simp [who_some hon'] at hw

theorem Inv.call (h : Inv s) {call : Call L} (ht : (s.thread (s.who c)).todo = [])
    (hbase : ¬(s.on c = none ∧ (s.thread (s.who c)).below = [])) (hg : call.gives → 0 < (s.thread (s.who c)).depth) :
    Inv (s.setThread c { s.thread (s.who c) with todo := call.code ptable }) := by
  have hnot : ¬Base (s.who c) (s.thread (s.who c)).below := fun hb => hbase ⟨by
    cases hon : s.on c with
    | none => rfl
    | some t => simpa [who_some hon] using hb.1, hb.2⟩
  refine h.enter ((h.cpu c).enter ht ?_ ?_)
  · cases call with
    | release l =>
      obtain ⟨n, hn⟩ := Nat.exists_eq_add_one.mpr (hg rfl)
      simp [Call.code, hn, hnot]
    | acquire l | holding l | myproc | sched => simp [Call.code, hnot]
  · cases call <;> simp [Call.code]

variable [Fintype C]

theorem Inv.resumes (h : Inv s) (ht : (s.thread (s.who c)).todo = .resume t :: rest) (hp : s.parked t = true) :
    Inv { s.setThread c { s.thread (s.who c) with todo := rest } with on := update s.on c (some t) } := by
  have hc := h.cpu c
  have ha : Ahead (s.thread (s.who c)).todo := ⟨.resume t, by simp [ht]⟩
  have he := hc.eflags_none (by simp [ht])
  have hn := hc.intena_none (by simp [ht])
  have hbase := hc.runs.own ha
  obtain ⟨m, hm, hzero⟩ := hc.runs.levels
  rw [ht, levels] at hm
  split_ifs at hm with hone
  rw [hone.1] at hm
  refine h.switch ⟨hone.1, he, ⟨⟨m, hm, hzero⟩, fun _ => hbase, by simp⟩, hc.frames, by simpa using hone.2,
    by simp [hn], fun hr => ?_⟩
    (who_ne hp) (fun _ => hc.intena ha (by omega)) (by rw [hc.depth, hone.1]; rfl) (hc.off (by omega))
  have := hbase.1
  cases hw : s.who c <;> simp [hw] at this hr

theorem Inv.alloc (h : Inv s) (hp : s.parked t = true) :
    Inv { s with thread := update s.thread (.inr t) (.forkret ptable) } := by
  have hsame (c : C) := update_of_ne (who_ne hp c) (.forkret ptable) s.thread
  refine ⟨fun c => ?_, fun k hk => ?_, h.single⟩
  · change OnCpu (s.cpu c) (s.who c) (update s.thread (.inr t) (.forkret ptable) (s.who c))
    rw [hsame]
    exact h.cpu c
  · change Parked k (update s.thread (.inr t) (.forkret ptable) k)
    by_cases hkt : k = .inr t
    · rw [hkt, update_self]
      exact parked_forkret
    · rw [update_of_ne hkt]
      exact h.parked k hk

variable [DecidableEq L]

theorem Inv.turn (h : Inv s) (hs : s.turn ptable c = some s') : Inv s' := by
  unfold Cli.turn at hs
  dsimp only at hs
  split at hs
  · next ht =>
    split at hs <;> cases hs
    next hc =>
    have hbase : Base (s.who c) (s.thread (s.who c)).below := ⟨by simp [who_none hc.1], hc.2⟩
    have hz : (s.thread (s.who c)).depth = 0 := by
      obtain ⟨m, hm, hzero⟩ := (h.cpu c).runs.levels
      simpa [ht, hzero hbase] using hm
    exact h.enter ((h.cpu c).enter ht ⟨0, by simp [hz], fun _ => rfl⟩ fun _ => ⟨hbase, hz, rfl⟩)
  · next i rest ht =>
    split at hs
    · cases hs
    · next t hon hn =>
      split at hs <;> cases hs
      next hf => exact h.swtch hon ht hn hf.1 hf.2
    · next t hon =>
      split at hs <;> cases hs
      next hp => exact h.resumes ht hp
    · next hsw _ _ =>
      obtain ⟨⟨f', th', lock'⟩, he, rfl⟩ := map_eq_some_iff.mp hs
      refine h.goesOn ((h.cpu c).exec ht (fun hi => ?_) he)
      cases hon : s.on c with
      | none => exact absurd hon (hsw hi)
      | some t => simp [who_some hon]

theorem Inv.next (h : Inv s) {l : Label C T L} (hs : s.next ptable l = some s') : Inv s' := by
  cases l with
  | turn c => exact h.turn hs
  | pick c t =>
    simp only [Cli.next] at hs
    split at hs <;> cases hs
    next hp => exact h.enter ((h.cpu c).picked hp t)
  | call c call =>
    simp only [Cli.next] at hs
    split at hs <;> cases hs
    next hf => exact h.call hf.1 hf.2.1 hf.2.2
  | interrupt c =>
    simp only [Cli.next] at hs
    split at hs <;> cases hs
    next hif => exact h.goesOn ((h.cpu c).interrupt hif)
  | iret c =>
    simp only [Cli.next] at hs
    split at hs <;> cases hs
    next ht hz hbelow => exact h.goesOn ((h.cpu c).iret ht hz hbelow)
  | alloc t =>
    simp only [Cli.next] at hs
    split at hs <;> cases hs
    next hp => exact h.alloc hp

theorem Inv.init (h : (machine ptable).init s) : Inv s := by
  obtain ⟨hcpu, hon, -, hsch, hproc⟩ := h
  have hwho : ∀ c, s.who c = .inl c := fun c => who_none (hon c)
  refine ⟨fun c => ?_, fun k hk => ?_, fun c c' h => ?_⟩
  · rw [hwho, hsch]
    exact ⟨⟨by simp, by simp, by simp⟩, trivial, by simp, by simp [hcpu], by simp, by simp, by simp, by simp, by simp⟩
  · cases k with
    | inl c => exact absurd (hwho c) (hk c)
    | inr t =>
      rw [hproc]
      exact parked_forkret
  · rw [hwho, hwho] at h
    exact Sum.inl.inj h

/-- In every run `ncli` is never negative, interrupts are off while it is positive, and a process that leaves its
    outermost `popcli`, which cannot panic, has the interrupt flag with which it entered the `pushcli`, on whichever
    CPU. -/
theorem interrupts_restored (h : (machine ptable).Reach s) :
    (∀ c, 0 ≤ (s.cpu c).ncli ∧ (0 < (s.cpu c).ncli → (s.cpu c).iflag = false)) ∧
    ∀ c t rest, s.on c = some t → (s.thread (.inr t)).todo = .popcli :: rest → (s.thread (.inr t)).depth = 1 →
      ∃ s', s.next ptable (.turn c) = some s' ∧ (s'.thread (.inr t)).depth = 0 ∧
        (s.thread (.inr t)).entries = (s'.cpu c).iflag :: (s'.thread (.inr t)).entries := by
  have hinv : Inv s := h.invariant (fun _ => Inv.init) fun _ _ _ hi => hi.next
  refine ⟨fun c => ⟨?_, fun hp => ?_⟩, fun c t rest hon ht hd => ?_⟩
  · rw [(hinv.cpu c).depth]
    exact Int.natCast_nonneg _
  · exact (hinv.cpu c).off (by have := (hinv.cpu c).depth; omega)
  · have hc := hinv.cpu c
    rw [who_some hon] at hc
    have hif := hc.off (by omega)
    have hncli : (s.cpu c).ncli = 1 := by rw [hc.depth, hd]; rfl
    have hn := hc.intena_none (by simp [ht])
    have he := hc.entries rfl
    let th' := { s.thread (.inr t) with todo := rest, depth := 0, entries := (s.thread (.inr t)).entries.tail }
    refine ⟨{ s.setThread c th' with
      cpu := update s.cpu c { ncli := 0, intena := (s.cpu c).intena, iflag := (s.cpu c).intena } }, ?_, ?_, ?_⟩
    · simp [Cli.next, Cli.turn, exec, setThread, who_some hon, ht, hif, hd, hncli, th']
    · simp [setThread, who_some hon, th']
    · simp [setThread, who_some hon, hd, hn, he, current, th']

deriving instance DecidableEq for CpuFlags, Kthread

/-- A state of two CPUs, one process and one lock, written out. -/
structure Snapshot where
  cpu : CpuFlags × CpuFlags
  on : Option Unit × Option Unit
  lock : Option Bool
  scheduler : Kthread Unit Unit × Kthread Unit Unit
  process : Kthread Unit Unit
  deriving DecidableEq

def Snapshot.state (x : Snapshot) : Cli Bool Unit Unit where
  cpu c := bif c then x.cpu.1 else x.cpu.2
  on c := bif c then x.on.1 else x.on.2
  lock _ := x.lock
  thread := Sum.elim (fun c => bif c then x.scheduler.1 else x.scheduler.2) fun _ => x.process

def snapshot (s : Cli Bool Unit Unit) : Snapshot :=
  ⟨(s.cpu true, s.cpu false), (s.on true, s.on false), s.lock (), (s.thread (.inl true), s.thread (.inl false)),
    s.thread (.inr ())⟩

theorem run_snapshot (ls : List (Label Bool Unit Unit)) {s : Cli Bool Unit Unit} {x : Snapshot}
    (h : (ls.foldlM (Cli.next ()) s).map snapshot = some x) : ls.foldlM (Cli.next ()) s = some x.state := by
  obtain ⟨r, hr, rfl⟩ := map_eq_some_iff.mp h
  rw [hr]
  congr 1
  rcases r with ⟨cpu, on, lock, thread⟩
  rw [Snapshot.state, mk.injEq]
  refine ⟨funext ?_, funext ?_, rfl, funext ?_⟩
  · rintro (_ | _) <;> rfl
  · rintro (_ | _) <;> rfl
  · rintro ((_ | _) | _) <;> rfl

/-- A process that runs on CPU true, -/
def running : Snapshot :=
  ⟨(⟨0, true, true⟩, {}), (some (), none), none, ({ todo := release (), depth := 1, entries := [true] }, {}), {}⟩

/-- that has acquired the lock there and called `sched`, -/
def switched : Snapshot :=
  { running with
    cpu := (⟨1, true, false⟩, {}), on := (none, none), lock := some true
    process := { todo := [swtch], intena := some true, depth := 1, entries := [true] } }

/-- and that the scheduler of CPU false has chosen. -/
def chosen : Snapshot :=
  { switched with
    cpu := (⟨0, true, true⟩, ⟨1, true, false⟩), lock := some false
    scheduler := ({}, { todo := picked () (some ()), depth := 1, entries := [true] }) }

theorem interrupts_restored_moved : ∃ s : Cli Bool Unit Unit, (machine ()).Reach s ∧ s.on false = some () ∧
    ∃ s', s.next () (.turn false) = some s' ∧ (s'.cpu false).iflag = true := by
  have h₁ := run_snapshot (.replicate 9 (.turn true) ++ .pick true (some ()) :: .replicate 10 (.turn true))
    (s := ⟨fun _ => {}, fun _ => none, fun _ => none, Sum.elim (fun _ => {}) fun _ => .forkret ()⟩) (x := running)
    (by decide +kernel)
  have h₂ := run_snapshot (.call true (.acquire ()) :: .replicate 7 (.turn true) ++
    .call true .sched :: .replicate 8 (.turn true)) (s := running.state) (x := switched) (by decide +kernel)
  have h₃ := run_snapshot (.replicate 6 (.turn true) ++ .replicate 9 (.turn false) ++ [.pick false (some ())])
    (s := switched.state) (x := chosen) (by decide +kernel)
  obtain ⟨s, h₄, he⟩ := exists_of_any
      (o := (.replicate 5 (.turn false) ++ .call false (.release ()) :: .replicate 5 (.turn false) : List
        (Label Bool Unit Unit)).foldlM (Cli.next ()) chosen.state)
      (p := fun s => s.on false = some () ∧ (s.thread (.inr ())).todo = [.popcli] ∧ (s.thread (.inr ())).depth = 1 ∧
        (s.thread (.inr ())).entries = [true]) (by decide +kernel)
  have hrun {ls : List (Label Bool Unit Unit)} {s t : Cli Bool Unit Unit} (hs : (machine ()).Reach s)
      (h : ls.foldlM (Cli.next ()) s = some t) : (machine ()).Reach t :=
    .foldlM (fun _ _ _ => id) hs h
  have hr : (machine ()).Reach s := hrun (hrun (hrun (hrun (.init (by simp [machine])) h₁) h₂) h₃) h₄
  obtain ⟨s', hs', -, hf⟩ := (interrupts_restored hr).2 false () [] he.1 he.2.1 he.2.2.1
  refine ⟨s, hr, he.1, s', hs', ?_⟩
  rw [he.2.2.2] at hf
  exact (List.cons.inj hf).1.symm

end Cli
end Xv6
