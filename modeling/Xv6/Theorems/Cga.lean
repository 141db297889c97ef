import Xv6.Console

/-! The screen: whatever is printed, what `cgaputc` leaves in CGA memory is a window on an endless text. -/

namespace Xv6.Cga
open Function

/-- An endless text in rows of 80, with a cursor, and the first row that is on the screen. -/
structure Tape where
  text : Nat → UInt16
  cur : Nat
  top : Nat

/-- A row is ended, the cursor moved back as far as the screen goes, or a character written. -/
def Tape.write (t : Tape) (c : Nat) : Tape :=
  if c = '\n'.toNat then { t with cur := 80 * (t.cur / 80 + 1) }
  else if c = BACKSPACE then { t with cur := max (t.cur - 1) (80 * t.top) }
  else ⟨update t.text t.cur (cell c), t.cur + 1, t.top⟩

def Tape.put (t : Tape) (c : Nat) : Tape :=
  ⟨update (t.write c).text (t.write c).cur (cell ' '.toNat), (t.write c).cur, max t.top ((t.write c).cur / 80 - 23)⟩

/-- The screen shows the text, in which nothing is below it; the memory behind it is `r`. -/
structure Window (r : Nat → UInt16) (g : Cga) (t : Tape) : Prop where
  cur : t.cur = 80 * t.top + g.pos
  cells : ∀ j < 24 * 80, g.crt j = t.text (80 * t.top + j)
  below : ∀ j, 80 * t.top + 24 * 80 ≤ j → t.text j = 0
  rest : ∀ j, 24 * 80 ≤ j → g.crt j = r j

variable {g : Cga} {t : Tape} {r : Nat → UInt16}

theorem Window.set {v : UInt16} (h : Window r g t) (hpos : g.pos < 24 * 80) :
    Window r { g with crt := update g.crt g.pos v } { t with text := update t.text t.cur v } := by
  have hcur := h.cur
  refine ⟨hcur, fun j hj => ?_, fun j hj => ?_, fun j hj => ?_⟩
  · by_cases hjp : j = g.pos
    · simp [hjp, ← hcur]
    · simp only [update_of_ne hjp, update_of_ne (show 80 * t.top + j ≠ t.cur by omega), h.cells j hj]
  · dsimp only at hj ⊢
    rw [update_of_ne (by omega), h.below j hj]
  · simp only [update_of_ne (show j ≠ g.pos by omega), h.rest j hj]

theorem Window.scroll (h : Window r g t) (hpos : g.pos ≤ 24 * 80) :
    Window r g.scroll { t with top := max t.top (t.cur / 80 - 23) } ∧ g.scroll.pos < 24 * 80 := by
  have hcur := h.cur
  unfold Cga.scroll
  split_ifs with hfull
  · -- the cursor is at the start of the first row below the screen
    have htop : max t.top (t.cur / 80 - 23) = t.top + 1 := by omega
    rw [htop]
    refine ⟨⟨by dsimp only; omega, fun j hj => ?_, fun j hj => h.below j (by dsimp only at hj; omega), fun j hj => ?_⟩,
      by dsimp only; omega⟩
    · dsimp only
      split_ifs with hlast hmoved
      · rw [h.below _ (by omega)]
      · rw [h.cells _ (by omega), Nat.mul_succ, Nat.add_assoc, Nat.add_comm 80]
      · omega
    · simp only [if_neg (show ¬(g.pos - 80 ≤ j ∧ j < 24 * 80) by omega), if_neg (show ¬j < 23 * 80 by omega),
        h.rest j hj]
  · have htop : max t.top (t.cur / 80 - 23) = t.top := by omega
    rw [htop]
    exact ⟨h, by omega⟩

theorem Window.put (h : Window r g t) (hpos : g.pos < 24 * 80) (c : Nat) :
    Window r (g.put c) (t.write c) ∧ (g.put c).pos ≤ 24 * 80 ∧ (t.write c).top = t.top := by
  have hcur := h.cur
  unfold Cga.put Tape.write
  split_ifs
  · exact ⟨⟨by dsimp only; omega, h.cells, h.below, h.rest⟩, by dsimp only; omega, rfl⟩
  · exact ⟨⟨by dsimp only; omega, h.cells, h.below, h.rest⟩, by dsimp only; omega, rfl⟩
  · obtain ⟨-, hcells, hbelow, hrest⟩ := h.set (v := cell c) hpos
    exact ⟨⟨by dsimp only; omega, hcells, hbelow, hrest⟩, hpos, rfl⟩

theorem Window.cgaputc (h : Window r g t) (hpos : g.pos < 24 * 80) (c : Nat) :
    ∃ g', g.cgaputc c = .ok g' ∧ Window r g' (t.put c) ∧ g'.pos < 24 * 80 := by
  obtain ⟨hput, hle, htop⟩ := h.put hpos c
  obtain ⟨hscroll, hlt⟩ := hput.scroll hle
  rw [htop] at hscroll
  exact ⟨_, if_neg (by omega), hscroll.set hlt, hlt⟩

theorem Window.run (h : Window r g t) (hpos : g.pos < 24 * 80) (s : List Nat) :
    ∃ g', s.foldlM Cga.cgaputc g = .ok g' ∧ Window r g' (s.foldl Tape.put t) := by
  induction s generalizing g t with
  | nil => exact ⟨g, rfl, h⟩
  | cons c s ih =>
    obtain ⟨g', hg, h', hpos'⟩ := h.cgaputc hpos c
    obtain ⟨g'', hs, hw⟩ := ih h' hpos'
    exact ⟨g'', by rw [List.foldlM_cons, hg]; exact hs, hw⟩

/-- Whatever is printed on whatever screen, with the cursor in its first 24 rows: `cgaputc` does not panic, what is seen
    is a window on the text that was printed, and the 25th row and what lies behind it are not touched. -/
theorem cgaputc_window (h : g.pos < 24 * 80) (s : List Nat) : ∃ g', s.foldlM cgaputc g = .ok g' ∧
    Window g.crt g' (s.foldl Tape.put ⟨fun j => if j < 24 * 80 then g.crt j else 0, g.pos, 0⟩) :=
  Window.run ⟨by simp, fun j hj => by simp [hj], fun j hj => if_neg (by dsimp only at hj; omega), fun _ _ => rfl⟩ h s

/-- A newline in the last row. -/
theorem cgaputc_window_last : ∃ g', [10].foldlM cgaputc ⟨fun _ => 7, 1919⟩ = .ok g' ∧ g'.pos = 1840 := by
  obtain ⟨g', hg, hw⟩ := cgaputc_window (g := ⟨fun _ => 7, 1919⟩) (by decide) [10]
  have hcur : 1920 = 80 * 1 + g'.pos := hw.cur
  exact ⟨g', hg, by omega⟩

end Xv6.Cga
