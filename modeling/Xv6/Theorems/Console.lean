import Xv6.Console

/-! The line discipline of the console: the line under edition after the lines committed, which `consoleread` takes
    out in order, however often the three indices have wrapped around. -/

namespace Xv6
open List

/-- The characters typed so far: the committed ones, and the line under edition. -/
structure Line where
  committed : List UInt8 := []
  editing : List UInt8 := []

def Line.Full (l : Line) (read : Nat) : Prop := l.committed.length + l.editing.length = read + INPUT_BUF

instance {l : Line} {read : Nat} : Decidable (l.Full read) := inferInstanceAs (Decidable (_ = _))

def Line.add (l : Line) (read : Nat) (c : UInt8) : Line :=
  let l := { l with editing := l.editing ++ [c] }
  if c = charByte '\n' ∨ c = ctrl 'D' ∨ l.Full read then ⟨l.committed ++ l.editing, []⟩ else l

/-- A character is typed: NUL and ^P are ignored, ^U, backspace and delete edit the line, and everything else is added
    to it, unless the buffer is full. -/
def Line.type (l : Line) (read : Nat) (c : UInt8) : Line :=
  if c = 0 ∨ c = ctrl 'P' then l
  else if c = ctrl 'U' then { l with editing := [] }
  else if c = ctrl 'H' ∨ c = 0x7f then { l with editing := l.editing.dropLast }
  else if l.Full read then l
  else l.add read (if c = charByte '\r' then charByte '\n' else c)

theorem Line.prefix_add {l : Line} {read : Nat} {c : UInt8} : l.committed <+: (l.add read c).committed := by
  unfold Line.add
  dsimp only
  split
  · exact prefix_append _ _
  · exact prefix_rfl

theorem Line.prefix_type {l : Line} {read : Nat} {c : UInt8} : l.committed <+: (l.type read c).committed := by
  unfold Line.type
  generalize (if c = charByte '\r' then charByte '\n' else c) = b
  split_ifs
  case neg => exact prefix_add
  all_goals exact prefix_rfl

namespace Input

def ring (s : Input) : RingBuf UInt8 32 INPUT_BUF := ⟨s.buf, s.r, s.e⟩

/-- The buffer after the line `l` was typed and the bytes `copied` were taken out. -/
structure Typed (s : Input) (l : Line) (copied : List UInt8) : Prop where
  holds : s.ring.Holds (l.committed ++ l.editing) copied
  w : s.w = BitVec.ofNat 32 l.committed.length
  fifo : copied <+: l.committed
  editing : charByte '\n' ∉ l.editing

theorem inputBuf_dvd : INPUT_BUF ∣ 2 ^ 32 := by decide

theorem inputBuf_lt : INPUT_BUF < 2 ^ 32 := by decide

variable {s : Input} {l : Line} {copied dst : List UInt8} {c : UInt8} {n : Nat}

namespace Typed

section

variable (h : s.Typed l copied)
include h

theorem length_le :
    copied.length ≤ l.committed.length ∧ l.committed.length + l.editing.length ≤ copied.length + INPUT_BUF := by
  refine ⟨h.fifo.length_le, ?_⟩
  have := h.holds.room
  rwa [length_append] at this

theorem e : s.e = BitVec.ofNat 32 (l.committed.length + l.editing.length) := by
  rw [← length_append]
  exact h.holds.nwrite

theorem e_eq_w_iff : s.e = s.w ↔ l.editing = [] := by
  have hle := h.length_le
  have hlt := inputBuf_lt
  rw [h.e, h.w]
  constructor
  · intro hew
    have := RingBuf.ofNat_inj (w := 32) (by omega) (by omega) hew.symm
    exact length_eq_zero_iff.mp (by omega)
  · rintro hnil
    rw [hnil, length_nil, Nat.add_zero]

theorem erase (hne : l.editing ≠ []) : { s with e := s.e - 1 }.Typed { l with editing := l.editing.dropLast } copied ∧
      s.char (s.e - 1) ≠ charByte '\n' := by
  have hed := dropLast_append_getLast hne
  have hholds : s.ring.Holds ((l.committed ++ l.editing.dropLast) ++ [l.editing.getLast hne]) copied := by
    rw [append_assoc, hed]
    exact h.holds
  have hle : copied.length ≤ (l.committed ++ l.editing.dropLast).length := by
    rw [length_append]
    exact h.fifo.length_le.trans (Nat.le_add_right _ _)
  refine ⟨⟨hholds.unpush hle, h.w, h.fifo, fun hmem => h.editing (mem_of_mem_dropLast hmem)⟩, fun hnl => ?_⟩
  have hback : s.char (s.e - 1) = l.editing.getLast hne := hholds.back inputBuf_dvd hle
  exact h.editing (hnl ▸ hback ▸ getLast_mem hne)

theorem killLine (hn : l.editing.length ≤ n) : (s.killLine n).Typed { l with editing := [] } copied := by
  induction n generalizing s l with
  | zero =>
    have hnil : l.editing = [] := length_eq_zero_iff.mp (by omega)
    exact hnil ▸ h
  | succ n ih =>
    rw [Input.killLine]
    by_cases hnil : l.editing = []
    · rw [if_neg fun hc => hc.1 (h.e_eq_w_iff.mpr hnil)]
      exact hnil ▸ h
    · obtain ⟨herase, hnl⟩ := h.erase hnil
      rw [if_pos ⟨mt h.e_eq_w_iff.mp hnil, hnl⟩]
      refine ih (l := { l with editing := l.editing.dropLast }) herase ?_
      rw [length_dropLast]
      omega

theorem length_editing : (s.e - s.w).toNat = l.editing.length := by
  have hle := h.length_le
  have hlt := inputBuf_lt
  rw [h.e, h.w, RingBuf.toNat_ofNat_sub (by omega) (by omega)]
  omega

theorem length_unread : (s.w - s.r).toNat = l.committed.length - copied.length ∧
      (s.e - s.r).toNat = l.committed.length + l.editing.length - copied.length := by
  have hle := h.length_le
  have hlt := inputBuf_lt
  have hr : s.r = BitVec.ofNat 32 copied.length := h.holds.nread
  rw [hr, h.w, h.e, RingBuf.toNat_ofNat_sub (by omega) (by omega), RingBuf.toNat_ofNat_sub (by omega) (by omega)]
  exact ⟨rfl, rfl⟩

theorem full_iff : l.Full copied.length ↔ ¬(s.e - s.r).toNat < INPUT_BUF := by
  have hle := h.length_le
  rw [h.length_unread.2, Line.Full]
  omega

theorem add (hfull : ¬l.Full copied.length) (c : UInt8) :
    let t : Input := { s with buf := Function.update s.buf (RingBuf.cell s.e) c, e := s.e + 1 }
    (if c = charByte '\n' ∨ c = ctrl 'D' ∨ t.e = t.r + BitVec.ofNat 32 INPUT_BUF then { t with w := t.e } else t).Typed
      (l.add copied.length c) copied := by
  intro t
  have hroom : ¬s.ring.Full := fun hf => by
    have := (h.holds.full_iff inputBuf_lt).mp hf
    rw [length_append] at this
    exact hfull this
  have hpush : t.ring.Holds (l.committed ++ (l.editing ++ [c])) copied := by
    rw [← append_assoc]
    exact h.holds.push inputBuf_dvd inputBuf_lt hroom c
  have hiff : t.e = t.r + BitVec.ofNat 32 INPUT_BUF ↔
    Line.Full { l with editing := l.editing ++ [c] } copied.length := by
    refine (hpush.full_iff inputBuf_lt).trans ?_
    rw [length_append]
    rfl
  rw [Line.add]
  simp only [hiff]
  split
  · refine ⟨by rwa [append_nil], ?_, h.fifo.trans (prefix_append _ _), by simp⟩
    exact hpush.nwrite
  · next hc =>
    rw [not_or] at hc
    refine ⟨hpush, h.w, h.fifo, fun hmem => ?_⟩
    rcases mem_append.mp hmem with hmem | hmem
    · exact h.editing hmem
    · exact hc.1 (mem_singleton.mp hmem).symm

theorem consoleintr (c : UInt8) : (s.consoleintr c).1.Typed (l.type copied.length c) copied := by
  unfold Input.consoleintr Line.type
  by_cases hP : c = ctrl 'P'
  · rwa [if_pos hP, if_pos (.inr hP)]
  rw [if_neg hP]
  by_cases h0 : c = 0
  · subst h0
    rw [if_pos (Or.inl rfl), if_neg (by decide), if_neg (by decide), if_neg (by simp)]
    exact h
  rw [if_neg (not_or.mpr ⟨h0, hP⟩)]
  by_cases hU : c = ctrl 'U'
  · rw [if_pos hU, if_pos hU]
    exact h.killLine h.length_editing.ge
  rw [if_neg hU, if_neg hU]
  by_cases hH : c = ctrl 'H' ∨ c = 0x7f
  · rw [if_pos hH, if_pos hH]
    by_cases hnil : l.editing = []
    · rw [if_neg (by simpa using h.e_eq_w_iff.mpr hnil), hnil, dropLast_nil, ← hnil]
      exact h
    · rw [if_pos (mt h.e_eq_w_iff.mp hnil)]
      exact (h.erase hnil).1
  rw [if_neg hH, if_neg hH]
  by_cases hfull : l.Full copied.length
  · rw [if_pos hfull, if_neg fun hc => h.full_iff.mp hfull hc.2]
    exact h
  · rw [if_neg hfull, if_pos ⟨h0, not_not.mp (mt h.full_iff.mpr hfull)⟩]
    dsimp only
    rw [apply_ite Prod.fst]
    exact h.add hfull _

theorem pop (hne : s.r ≠ s.w) : { s with r := s.r + 1 }.Typed l (copied ++ [s.char s.r]) := by
  have hle := h.length_le
  have hlt : copied.length < l.committed.length := by
    refine lt_of_le_of_ne hle.1 fun heq => hne ?_
    rw [h.w, ← heq]
    exact h.holds.nread
  have hempty : ¬s.ring.Empty := fun he => by
    have := (h.holds.empty_iff inputBuf_lt).mp he
    rw [length_append] at this
    omega
  have hpop := h.holds.pop inputBuf_dvd inputBuf_lt hempty
  refine ⟨hpop, h.w, prefix_of_prefix_length_le hpop.fifo (prefix_append _ _) ?_, h.editing⟩
  rw [length_append, length_singleton]
  exact hlt

theorem readLoop (killed : Bool) (target n : Nat) (dst : List UInt8) :
    (s.readLoop killed target n dst).input.Typed l (copied ++ (s.readLoop killed target n dst).taken) := by
  induction n generalizing s copied dst with
  | zero => simpa [Input.readLoop] using h
  | succ n ih =>
    unfold Input.readLoop
    by_cases hrw : s.r = s.w
    · rw [if_pos hrw]
      cases killed <;> simpa using h
    rw [if_neg hrw]
    have hpop := h.pop hrw
    dsimp only
    split
    · split
      · simpa [BitVec.add_sub_cancel] using h
      · exact hpop
    · split
      · exact hpop
      · simpa using ih hpop _

end

end Typed

end Input

/-- What a call that has taken the bytes `took` has stored when a section of it ends: those bytes, a single ^D apart,
    with a newline at the very end only, and as many as the call returns. -/
def ReadEnd.OneLine (took : List UInt8) : ReadEnd → Prop
  | .sleep x => took = x.dst ∧ charByte '\n' ∉ x.dst ∧ x.dst.length + x.n = x.target
  | .ret v dst =>
    (took = dst ∨ dst = [] ∧ took = [ctrl 'D']) ∧ charByte '\n' ∉ dst.dropLast ∧ (v = -1 ∨ v = dst.length)

theorem Input.readLoop_oneLine (s : Input) (killed : Bool) {target n : Nat} {dst : List UInt8}
    (hdst : charByte '\n' ∉ dst) (hlen : dst.length + n = target) :
    (s.readLoop killed target n dst).next.OneLine (dst ++ (s.readLoop killed target n dst).taken) := by
  induction n generalizing s dst with
  | zero =>
    rw [Nat.add_zero] at hlen
    exact ⟨.inl (append_nil _), fun hmem => hdst (mem_of_mem_dropLast hmem), .inr (by rw [hlen])⟩
  | succ n ih =>
    have hdrop : charByte '\n' ∉ dst.dropLast := fun hmem => hdst (mem_of_mem_dropLast hmem)
    unfold Input.readLoop
    split
    · cases killed with
      | true => exact ⟨.inl (append_nil _), hdrop, .inl rfl⟩
      | false => exact ⟨append_nil _, hdst, hlen⟩
    · dsimp only
      split
      · next hD =>
        split
        · exact ⟨.inl (append_nil _), hdrop, .inr (by omega)⟩
        · have hnil : dst = [] := length_eq_zero_iff.mp (by omega)
          exact ⟨.inr ⟨hnil, by rw [hnil, hD, nil_append]⟩, hdrop, .inr (by omega)⟩
      · split
        · refine ⟨.inl rfl, by rwa [dropLast_concat], .inr ?_⟩
          rw [length_append, length_singleton]
          omega
        · next hnl =>
          rw [append_cons]
          refine ih _ ?_ ?_
          · rw [mem_append, mem_singleton, not_or]
            exact ⟨hdst, Ne.symm hnl⟩
          · rw [length_append, length_singleton]
            omega

/-! ### Sessions -/

structure Session (P : Type) where
  con : Console P := {}
  line : Line := {}

namespace Session
open Console

variable {P : Type} [DecidableEq P] {s t : Session P} {a : Label P}

def next (s : Session P) (a : Label P) : Option (Session P) :=
  (s.con.next a).map fun con =>
    match a with
    | .intr c => ⟨con, s.line.type s.con.log.length c⟩
    | _ => ⟨con, s.line⟩

/-- Every interleaving of characters and of `consoleread` calls, from the console as it starts. -/
def machine (P : Type) [DecidableEq P] : Machine (Session P) (Label P) where
  init s := s = {}
  step s a t := s.next a = some t

def takenBy (s : Session P) (p : P) : List UInt8 := (s.con.log.filter (·.1 = p)).map (·.2)

def tookBy (s : Session P) (p : P) : List UInt8 := (s.con.returned.filter (·.1 = p)).flatMap (·.2.2.2)

structure Inv (s : Session P) : Prop where
  typed : s.con.input.Typed s.line s.con.copied
  idle : ∀ p, s.con.reader p = none → s.con.took p = []
  reading : ∀ p x, s.con.reader p = some x → (ReadEnd.sleep x).OneLine (s.con.took p)
  returned : ∀ p v dst took, (p, v, dst, took) ∈ s.con.returned → (ReadEnd.ret v dst).OneLine took
  split : ∀ p, takenBy s p = tookBy s p ++ s.con.took p

theorem map_snd_filter_map (p q : P) (l : List UInt8) :
    ((l.map (p, ·)).filter (·.1 = q)).map (·.2) = if p = q then l else [] := by
  by_cases hpq : p = q <;> simp [filter_map, Function.comp_def, hpq]

theorem Inv.goOn (h : Inv s) {p : P} {x : Reader} (hx : (ReadEnd.sleep x).OneLine (s.con.took p)) :
    Inv { s with con := s.con.goOn p x } := by
  have htyped := h.typed.readLoop (s.con.killed p) x.target x.n x.dst
  have hend := s.con.input.readLoop_oneLine (s.con.killed p) hx.2.1 hx.2.2
  nth_rewrite 1 [← hx.1] at hend
  have hsplit := h.split
  unfold takenBy tookBy at hsplit
  unfold Console.goOn
  dsimp only
  split
  · next y hy =>
    rw [hy] at hend
    refine ⟨by simpa [Console.copied] using htyped, fun q hq => ?_, fun q z hz => ?_, h.returned, fun q => ?_⟩
    · rcases eq_or_ne q p with rfl | hne
      · simp at hq
      · simpa [hne] using h.idle q (by simpa [hne] using hq)
    · rcases eq_or_ne q p with rfl | hne
      · simp only [Function.update_self, Option.some.injEq] at hz ⊢
        exact hz ▸ hend
      · simpa [hne] using h.reading q z (by simpa [hne] using hz)
    · rcases eq_or_ne q p with rfl | hne
      · simp [takenBy, tookBy, hsplit, map_snd_filter_map]
      · simp [takenBy, tookBy, hsplit, map_snd_filter_map, hne, hne.symm]
  · next v dst hy =>
    rw [hy] at hend
    refine ⟨by simpa [Console.copied] using htyped, fun q hq => ?_, fun q z hz => ?_, fun q u d k hmem => ?_,
      fun q => ?_⟩
    · rcases eq_or_ne q p with rfl | hne
      · simp
      · simpa [hne] using h.idle q (by simpa [hne] using hq)
    · rcases eq_or_ne q p with rfl | hne
      · simp at hz
      · simpa [hne] using h.reading q z (by simpa [hne] using hz)
    · rcases mem_append.mp hmem with hmem | hmem
      · exact h.returned q u d k hmem
      · cases mem_singleton.mp hmem
        exact hend
    · rcases eq_or_ne q p with rfl | hne
      · simp [takenBy, tookBy, hsplit, map_snd_filter_map]
      · simp [takenBy, tookBy, hsplit, map_snd_filter_map, hne, hne.symm]

theorem Inv.next (h : Inv s) (hs : s.next a = some t) : Inv t := by
  obtain ⟨con, hcon, rfl⟩ := Option.map_eq_some_iff.mp hs
  cases a with
  | intr c =>
    cases hcon
    refine ⟨?_, h.idle, h.reading, h.returned, h.split⟩
    have := h.typed.consoleintr c
    rwa [Console.copied, length_map] at this
  | read p n =>
    simp only [Console.next, Option.ite_none_right_eq_some, Option.some.injEq] at hcon
    rw [← hcon.2]
    exact h.goOn ⟨h.idle p hcon.1, by simp, by simp⟩
  | resume p =>
    simp only [Console.next] at hcon
    split at hcon
    · next x hx =>
      simp only [Option.ite_none_right_eq_some, Option.some.injEq] at hcon
      rw [← hcon.2]
      exact h.goOn (h.reading p x hx)
    · cases hcon
  | kill p =>
    cases hcon
    exact ⟨h.typed, h.idle, h.reading, h.returned, h.split⟩

theorem Inv.took (h : Inv s) (p : P) : s.con.took p = ((s.con.reader p).map Reader.dst).getD [] := by
  cases hr : s.con.reader p with
  | none => exact h.idle p hr
  | some x => exact (h.reading p x hr).1

theorem reach_inv (h : (machine P).Reach s) : Inv s := by
  refine h.invariant (fun s (hs : s = {}) => ?_) fun _ _ _ hi hs => hi.next hs
  subst hs
  refine ⟨⟨⟨rfl, rfl, prefix_rfl, by simp, by simp⟩, rfl, prefix_rfl, by simp⟩, by simp, by simp, by simp, fun _ => rfl⟩

/-- The bytes taken out so far are the first of the committed ones, and the others are in their cells between `r` and
    `w`; no step takes a committed byte back; what a call has stored is what it has taken out, a single ^D apart, with a
    newline at the end at most; and the bytes a process has taken out are those of its calls. -/
theorem console_line_discipline (h : (machine P).Reach s) :
    ((s.con.input.w - s.con.input.r).toNat ≤ (s.con.input.e - s.con.input.r).toNat ∧
      (s.con.input.e - s.con.input.r).toNat ≤ INPUT_BUF) ∧ (s.con.copied <+: s.line.committed ∧
      s.line.committed.length = s.con.copied.length + (s.con.input.w - s.con.input.r).toNat) ∧
    (∀ j (hj : j < s.line.committed.length), s.con.copied.length ≤ j →
      s.con.input.char (BitVec.ofNat 32 j) = s.line.committed[j]) ∧
    (∀ a t, (machine P).step s a t → s.line.committed <+: t.line.committed) ∧
    (∀ p v dst took, (p, v, dst, took) ∈ s.con.returned → (took = dst ∨ dst = [] ∧ took = [ctrl 'D']) ∧
      charByte '\n' ∉ dst.dropLast ∧ (v = -1 ∨ v = dst.length)) ∧
    (∀ p, takenBy s p = tookBy s p ++ s.con.took p ∧
      s.con.took p = ((s.con.reader p).map Reader.dst).getD []) := by
  have hi := reach_inv h
  obtain ⟨hread, hroom⟩ := hi.typed.length_le
  obtain ⟨hw, he⟩ := hi.typed.length_unread
  refine ⟨⟨by omega, by omega⟩, ⟨hi.typed.fifo, by omega⟩, fun j hj hlo => ?_, fun a t hs => ?_, hi.returned,
    fun p => ⟨hi.split p, hi.took p⟩⟩
  · have hkept := hi.typed.holds.kept j (by rw [length_append]; omega) hlo
    rw [getElem_append_left hj, ← RingBuf.cell_ofNat Input.inputBuf_dvd] at hkept
    exact hkept
  · obtain ⟨con, -, rfl⟩ := Option.map_eq_some_iff.mp hs
    cases a with
    | intr c => exact Line.prefix_type
    | _ => exact prefix_rfl

/-- A reader goes to sleep for ten bytes; `ab`, a backspace, `c`, a return, `d` and ^D are typed, and it reads on. -/
def typeLine : List (Label Unit) :=
  [.read () 10] ++ ("ab".toList.map charByte ++ [ctrl 'H'] ++ "c\rd".toList.map charByte ++ [ctrl 'D']).map .intr ++
    [.resume (), .read () 5, .read () 5]

/-- What it reads: the line `ac`, then `d`, then nothing. -/
def readLine : List (Unit × Int × List UInt8 × List UInt8) :=
  let ac := "ac\n".toList.map charByte
  [((), 3, ac, ac), ((), 1, [charByte 'd'], [charByte 'd']), ((), 0, [], [ctrl 'D'])]

theorem console_line_discipline_typeLine : ∃ s, (machine Unit).Reach s ∧ s.con.returned = readLine ∧
    s.con.copied = s.line.committed ∧ s.con.copied <+: s.line.committed ∧
    (s.con.input.e - s.con.input.r).toNat ≤ INPUT_BUF ∧ takenBy s () = tookBy s () ++ s.con.took () := by
  obtain ⟨s, hs, hret, hall⟩ := Option.exists_of_any (o := typeLine.foldlM next ({} : Session Unit))
      (p := fun s => s.con.returned = readLine ∧ s.con.copied = s.line.committed) (by decide +kernel)
  have hr : (machine Unit).Reach s := .foldlM (fun _ _ _ => id) (.init rfl) hs
  obtain ⟨⟨-, hroom⟩, ⟨hfifo, -⟩, -, -, -, htaken⟩ := console_line_discipline hr
  exact ⟨s, hr, hret, hall, hfifo, hroom, (htaken ()).1⟩

end Session
end Xv6
