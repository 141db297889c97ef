import Xv6.Lib.Cstr
import Xv6.Syscall

/-! The checks of system call arguments: nothing is fetched from outside of the memory of the process. -/

namespace Xv6
open List Option

variable {α β : Type} {c : Caller} {a addr n p f i uargv : Nat} {argv : List Nat} {s : List UInt8}

/-! ### What is read -/

def Fetch.Below (x : Fetch α) (sz : Nat) : Prop := ∀ a ∈ x.reads, a < sz

theorem Fetch.Below.bind {x : Fetch α} {g : α → Fetch β} {sz : Nat} (hx : x.Below sz)
    (hg : ∀ a, x.result = some a → (g a).Below sz) : (x >>= g).Below sz := by
  change (Fetch.bind x g).Below sz
  unfold Fetch.bind
  cases hr : x.result with
  | none => exact hx
  | some a =>
    intro b hb
    rcases mem_append.mp hb with hb | hb
    · exact hx b hb
    · exact hg a hr b hb

theorem Fetch.bind_result {x : Fetch α} {g : α → Fetch β} {b : β} :
    (x >>= g).result = some b ↔ ∃ a, x.result = some a ∧ (g a).result = some b := by
  change (Fetch.bind x g).result = some b ↔ _
  unfold Fetch.bind
  cases x.result <;> simp

theorem Fetch.below_nil (r : Option α) (sz : Nat) : Fetch.Below ⟨r, []⟩ sz := nofun

namespace Caller

theorem sz_lt_half (c : Caller) : c.sz < 2 ^ 31 := c.sz_lt

theorem fetchint_eq_some {v : Nat} : c.fetchint addr = some v ↔ addr + 4 ≤ c.sz ∧ v = Bytes.load c.mem addr := by
  have hsz := c.sz_lt_half
  rw [fetchint, ite_none_left_eq_some, some_inj, eq_comm (a := v), not_or]
  refine and_congr_left fun _ => ?_
  omega

theorem argptr_eq_some {size : Int} (hs : size < 2 ^ 31) : c.argptr n size = some p ↔
    c.argint n = some p ∧ 0 ≤ size ∧ p < c.sz ∧ p + size ≤ c.sz := by
  have hsz := c.sz_lt_half
  simp only [argptr, bind_eq_bind, bind_eq_some_iff, ite_none_left_eq_some, some_inj, not_or]
  constructor
  · rintro ⟨i, hi, ⟨h1, h2, h3⟩, rfl⟩
    exact ⟨hi, by omega, by omega, by omega⟩
  · rintro ⟨hi, h1, h2, h3⟩
    exact ⟨p, hi, ⟨by omega, by omega, by omega⟩, rfl⟩

theorem fetchWord_below : (c.fetchWord addr).Below c.sz := by
  intro a ha
  simp only [fetchWord] at ha
  split at ha
  next h =>
    obtain ⟨v, hv⟩ := isSome_iff_exists.mp h
    obtain ⟨k, hk, rfl⟩ := mem_map.mp ha
    have := (fetchint_eq_some.mp hv).1
    have := mem_range.mp hk
    omega
  next => cases ha

/-! ### Strings -/

def HasStr (c : Caller) (p n : Nat) : Prop := ∃ s, Cstr.At c.mem p s ∧ s.length = n ∧ p + n < c.sz

theorem strFrom_below (f a : Nat) : (c.strFrom f a).Below c.sz := by
  induction f generalizing a with
  | zero => exact Fetch.below_nil _ _
  | succ f ih =>
    rw [strFrom]
    split_ifs with h1 h2
    · rintro b (_ | ⟨_, ⟨⟩⟩)
      exact h1
    · rintro b (_ | ⟨_, hb⟩)
      · exact h1
      · exact ih (a + 1) b hb
    · exact Fetch.below_nil _ _

theorem strFrom_at (hs : Cstr.At c.mem a s) (hlt : a + s.length < c.sz) (hf : s.length < f) :
    (c.strFrom f a).result = some (a + s.length) := by
  induction s generalizing a f with
  | nil =>
    obtain _ | f := f
    · omega
    have ha : a < c.sz := hlt
    have h0 : c.mem a = 0 := hs
    rw [strFrom, if_pos ha, if_pos h0]
    rfl
  | cons b s ih =>
    obtain _ | f := f
    · omega
    obtain ⟨hb, hm, hs⟩ := hs
    rw [length_cons] at hlt hf ⊢
    rw [strFrom, if_pos (by omega), if_neg (hm ▸ hb)]
    exact (ih hs (by omega) (by omega)).trans (congrArg some (by omega))

theorem exists_at_of_strFrom {e : Nat} (h : (c.strFrom f a).result = some e) :
    ∃ s, Cstr.At c.mem a s ∧ e = a + s.length ∧ e < c.sz := by
  induction f generalizing a with
  | zero => cases h
  | succ f ih =>
    rw [strFrom] at h
    split_ifs at h with h1 h2
    · cases h
      exact ⟨[], h2, rfl, h1⟩
    · obtain ⟨s, hs, rfl, hlt⟩ := ih h
      exact ⟨c.mem a :: s, ⟨h2, rfl, hs⟩, by rw [length_cons]; omega, hlt⟩

theorem fetchstr_eq_some : (c.fetchstr addr).result = some (p, n) ↔ p = addr ∧ c.HasStr addr n := by
  unfold fetchstr
  constructor
  · intro h
    split_ifs at h
    obtain ⟨e, he, hp⟩ := Fetch.bind_result.mp h
    obtain ⟨s, hs, rfl, hlt⟩ := exists_at_of_strFrom he
    cases hp
    exact ⟨rfl, s, hs, by omega, by omega⟩
  · rintro ⟨rfl, s, hs, rfl, hlt⟩
    rw [if_neg (by omega)]
    exact Fetch.bind_result.mpr ⟨_, strFrom_at hs hlt (by omega), by rw [Nat.add_sub_cancel_left]; rfl⟩

theorem fetchstr_below : (c.fetchstr addr).Below c.sz := by
  unfold fetchstr
  split
  · exact Fetch.below_nil _ _
  · exact (strFrom_below _ _).bind fun _ _ => Fetch.below_nil _ _

theorem argstr_below : (c.argstr n).Below c.sz := fetchWord_below.bind fun _ _ => fetchstr_below

theorem argstr_eq_some {m : Nat} : (c.argstr n).result = some (p, m) ↔ c.argint n = some p ∧ c.HasStr p m := by
  unfold argstr
  rw [Fetch.bind_result]
  constructor
  · rintro ⟨addr, ha, h⟩
    obtain ⟨rfl, hs⟩ := fetchstr_eq_some.mp h
    exact ⟨ha, hs⟩
  · rintro ⟨ha, hs⟩
    exact ⟨p, ha, fetchstr_eq_some.mpr ⟨rfl, hs⟩⟩

/-! ### The arguments of exec -/

structure Walked (c : Caller) (argv : List Nat) (i : Nat) (r : Fetch (List Nat)) : Prop where
  below : r.Below c.sz
  strings : ∀ l, r.result = some l → ∃ ps, l = argv ++ ps ∧ i + ps.length < MAXARG ∧ ∀ p ∈ ps, ∃ n, c.HasStr p n

/-- The induction is on the turns that are left; a turn with `i = MAXARG` is the last one. -/
theorem argvFrom_walked (hi : i ≤ MAXARG) (hf : MAXARG < f + i) : ∃ r, c.argvFrom uargv f i argv = some r ∧
    c.Walked argv i r := by
  induction f generalizing i argv with
  | zero => omega
  | succ f ih =>
    have hw : (c.fetchWord ((uargv + 4 * i) % 2 ^ 32)).Below c.sz := fetchWord_below
    rw [argvFrom]
    split_ifs with hmax
    · exact ⟨_, rfl, Fetch.below_nil _ _, nofun⟩
    dsimp only
    split
    next => exact ⟨_, rfl, hw, nofun⟩
    next =>
      refine ⟨_, rfl, hw, ?_⟩
      rintro l ⟨⟩
      exact ⟨[], (append_nil _).symm, Nat.not_le.mp hmax, nofun⟩
    next uarg _ _ =>
      have hs : (c.fetchstr uarg).Below c.sz := fetchstr_below
      have hws : ∀ a ∈ (c.fetchWord ((uargv + 4 * i) % 2 ^ 32)).reads ++ (c.fetchstr uarg).reads, a < c.sz :=
        fun a ha =>
        (mem_append.mp ha).elim (hw a) (hs a)
      split
      next => exact ⟨_, rfl, hws, nofun⟩
      next p n hp =>
        obtain ⟨rfl, hstr⟩ := fetchstr_eq_some.mp hp
        obtain ⟨r, hr, hbelow, hstrings⟩ : ∃ r, c.argvFrom uargv f (i + 1) (argv ++ [p]) = some r ∧
            c.Walked (argv ++ [p]) (i + 1) r := ih (by omega) (by omega)
        refine ⟨_, by rw [hr]; rfl, fun a ha => (mem_append.mp ha).elim (hws a) (hbelow a), fun l hl => ?_⟩
        obtain ⟨ps, rfl, hlen, hps⟩ := hstrings l hl
        refine ⟨p :: ps, by rw [append_assoc]; rfl, by rw [length_cons]; omega, fun q hq => ?_⟩
        rcases mem_cons.mp hq with rfl | hq
        · exact ⟨n, hstr⟩
        · exact hps q hq

theorem sysExec_walked (ht : MAXARG < n) : ∃ r, c.sysExec n = some r ∧ r.Below c.sz ∧
    ∀ path argv, r.result = some (path, argv) →
    (∃ m, c.HasStr path m) ∧ argv.length < MAXARG ∧ ∀ p ∈ argv, ∃ m, c.HasStr p m := by
  unfold sysExec
  lift_lets
  intro args
  have hbelow : args.Below c.sz := argstr_below.bind fun _ _ => fetchWord_below.bind fun _ _ => Fetch.below_nil _ _
  split
  next => exact ⟨_, rfl, hbelow, by simp⟩
  next path uargv hr =>
    obtain ⟨r, hw, hb, hstrings⟩ : ∃ r, c.argvFrom uargv n 0 [] = some r ∧ c.Walked [] 0 r :=
      argvFrom_walked (Nat.zero_le _) ht
    refine ⟨_, by rw [hw]; rfl, fun a ha => (mem_append.mp ha).elim (hbelow a) (hb a), fun path' argv h => ?_⟩
    obtain ⟨l, hl, he⟩ := map_eq_some_iff.mp h
    cases he
    obtain ⟨ps, rfl, hlen, hps⟩ := hstrings argv hl
    obtain ⟨⟨q, m⟩, hq, hr⟩ := Fetch.bind_result.mp hr
    obtain ⟨u, -, hr⟩ := Fetch.bind_result.mp hr
    cases hr
    exact ⟨⟨m, (argstr_eq_some.mp hq).2⟩, by simpa using hlen, hps⟩

/-- The checks admit exactly the memory of the process, and nothing else is read. -/
structure ArgsOwn (c : Caller) : Prop where
  fetchint : ∀ addr v, c.fetchint addr = some v ↔ addr + 4 ≤ c.sz ∧ v = Bytes.load c.mem addr
  argint : ∀ n v, c.argint n = some v ↔
    (c.esp + 4 + 4 * n) % 2 ^ 32 + 4 ≤ c.sz ∧ v = Bytes.load c.mem ((c.esp + 4 + 4 * n) % 2 ^ 32)
  argptr : ∀ n size p, size < 2 ^ 31 →
    (c.argptr n size = some p ↔ c.argint n = some p ∧ 0 ≤ size ∧ p < c.sz ∧ p + size ≤ c.sz)
  fetchstr : ∀ addr p n, (c.fetchstr addr).result = some (p, n) ↔ p = addr ∧ c.HasStr addr n
  argstr : ∀ n p m, (c.argstr n).result = some (p, m) ↔ c.argint n = some p ∧ c.HasStr p m
  reads : (∀ addr, (c.fetchWord addr).Below c.sz) ∧ (∀ addr, (c.fetchstr addr).Below c.sz) ∧
    ∀ n, (c.argstr n).Below c.sz
  /-- The loop of `sys_exec` makes at most `MAXARG` turns that read, and one more that fails. -/
  sysExec : ∃ r, c.sysExec (MAXARG + 1) = some r ∧ r.Below c.sz ∧ ∀ path argv, r.result = some (path, argv) →
    (∃ m, c.HasStr path m) ∧ argv.length < MAXARG ∧ ∀ p ∈ argv, ∃ m, c.HasStr p m

theorem args_own (c : Caller) : ArgsOwn c where
  fetchint _ _ := fetchint_eq_some
  argint _ _ := fetchint_eq_some
  argptr _ _ _ hs := argptr_eq_some hs
  fetchstr _ _ _ := fetchstr_eq_some
  argstr _ _ _ := argstr_eq_some
  reads := ⟨fun _ => fetchWord_below, fun _ => fetchstr_below, fun _ => argstr_below⟩
  sysExec := sysExec_walked (Nat.lt_succ_self _)

end Caller
end Xv6
