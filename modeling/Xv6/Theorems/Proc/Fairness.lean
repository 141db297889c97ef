import Mathlib
import Xv6.Lib.Lcg
import Xv6.Theorems.Proc.Lottery

/-! The shares of the lottery: `random` runs through all its values before it repeats one, so over a period of draws
    each process is chosen in proportion to its tickets. -/

namespace Xv6
namespace Ptable
open Finset Function

variable {s : Ptable} {p q : Slot}

theorem random_eq_next (r : Nat) : random r = Lcg.next 1103515245 12345 31 r := by
  unfold random RAND_MAX Lcg.next
  rw [Nat.and_two_pow_sub_one_eq_mod, Nat.mod_mod_of_dvd _ (by norm_num), mul_comm]

theorem random_iterate (n r : Nat) : random^[n] r = (Lcg.next 1103515245 12345 31)^[n] r :=
  congrArg (fun f : Nat → Nat => f^[n] r) (funext random_eq_next)

/-! ### The winner -/

theorem pickWinner_mem {winner n : Int} {l : List Slot} (h : s.pickWinner winner l n = some p) : p ∈ l := by
  induction l generalizing n with
  | nil => cases h
  | cons q l ih =>
    simp only [pickWinner] at h
    split at h
    · exact List.mem_cons_of_mem _ (ih h)
    · split at h
      · cases h
        exact List.mem_cons_self
      · exact List.mem_cons_of_mem _ (ih h)

def Holders (s : Ptable) : Prop := ∀ p, (s.proc p).state = .runnable → 0 < (s.proc p).tickets

instance : DecidablePred Holders :=
  fun s => inferInstanceAs (Decidable (∀ p, (s.proc p).state = .runnable → 0 < (s.proc p).tickets))

theorem Holders.drawn_nonneg (h : Holders s) (p : Slot) : 0 ≤ s.drawn p := by
  unfold drawn
  split
  · next hp => exact (h p hp).le
  · exact le_rfl

theorem Holders.sum_nonneg (h : Holders s) (l : List Slot) : 0 ≤ (l.map s.drawn).sum :=
  List.sum_nonneg (by simpa using fun p _ => h.drawn_nonneg p)

theorem pickWinner_eq_some_iff (h : Holders s) (hp : (s.proc p).state = .runnable) {winner n : Int} {a b : List Slot}
    (ha : p ∉ a) (hb : p ∉ b) (hn : 0 ≤ n) (hnw : n ≤ winner) (hsum : n + ((a ++ p :: b).map s.drawn).sum < 2 ^ 31) :
    s.pickWinner winner (a ++ p :: b) n = some p ↔
      n + (a.map s.drawn).sum ≤ winner ∧ winner < n + (a.map s.drawn).sum + (s.proc p).tickets := by
  have hint : ∀ x : Int, 0 ≤ x → x < 2 ^ 31 → int32 x = x := fun x h0 h1 => CInt.wrap_of_range (by omega) h1
  induction a generalizing n with
  | nil =>
    have hdp : s.drawn p = (s.proc p).tickets := if_pos hp
    have hb0 := h.sum_nonneg b
    have hp0 := h p hp
    simp only [List.nil_append, List.map_cons, List.sum_cons, hdp] at hsum
    simp only [List.nil_append, pickWinner, hp, ne_eq, not_true_eq_false, if_false,
      hint (n + (s.proc p).tickets) (by omega) (by omega), List.map_nil, List.sum_nil, add_zero]
    split
    · next hlt => exact iff_of_true rfl ⟨hnw, hlt⟩
    · next hge => exact iff_of_false (fun hw => hb (pickWinner_mem hw)) fun hw => hge hw.2
  | cons q a ih =>
    have hqp : q ≠ p := fun hq => ha (hq ▸ List.mem_cons_self)
    have hpa : p ∉ a := fun hm => ha (List.mem_cons_of_mem _ hm)
    have ha0 := h.sum_nonneg a
    have hr0 := h.sum_nonneg (a ++ p :: b)
    simp only [List.cons_append, List.map_cons, List.sum_cons] at hsum
    simp only [List.cons_append, List.map_cons, List.sum_cons, pickWinner]
    by_cases hq : (s.proc q).state = .runnable
    · have hdq : s.drawn q = (s.proc q).tickets := if_pos hq
      have hq0 := h q hq
      simp only [hq, ne_eq, not_true_eq_false, if_false, hdq] at hsum ⊢
      rw [hint (n + (s.proc q).tickets) (by omega) (by omega)]
      split
      · exact iff_of_false (fun hw => hqp (Option.some.inj hw)) fun hw => by omega
      · next hge =>
        have hrest := ih hpa (n := n + (s.proc q).tickets) (by omega) (by omega) (by omega)
        simpa only [add_assoc] using hrest
    · have hdq : s.drawn q = 0 := if_neg hq
      simp only [hq, ne_eq, not_false_eq_true, if_true, hdq, zero_add] at hsum ⊢
      exact ih hpa hn hnw hsum

def ticketsBefore (s : Ptable) (p : Slot) : Int := ∑ q ∈ Iio p, s.drawn q

theorem slots_split (p : Slot) : ∃ a b, slots = a ++ p :: b ∧ p ∉ a ∧ p ∉ b ∧
    ∀ s : Ptable, (a.map s.drawn).sum = s.ticketsBefore p := by
  obtain ⟨a, b, hab⟩ := List.append_of_mem (mem_slots p)
  have hord : slots.Pairwise (· < ·) := List.pairwise_lt_finRange NPROC
  rw [hab, List.pairwise_append] at hord
  obtain ⟨ha, hb, hcross⟩ := hord
  have hlt : ∀ q ∈ a, q < p := fun q hq => hcross q hq p List.mem_cons_self
  have hgt : ∀ q ∈ b, p < q := (List.pairwise_cons.mp hb).1
  have hset : a.toFinset = Iio p := by
    ext q
    rw [List.mem_toFinset, mem_Iio]
    refine ⟨hlt q, fun hq => ?_⟩
    have hmem := mem_slots q
    rw [hab, List.mem_append, List.mem_cons] at hmem
    rcases hmem with hq' | rfl | hq'
    · exact hq'
    · exact absurd hq (lt_irrefl q)
    · exact absurd (hgt q hq') (lt_asymm hq)
  refine ⟨a, b, hab, fun hp => lt_irrefl p (hlt p hp), fun hp => lt_irrefl p (hgt p hp), fun s => ?_⟩
  rw [ticketsBefore, ← hset, List.sum_toFinset _ (ha.imp ne_of_lt)]

theorem Holders.totalTickets (h : Holders s) (hT : s.runnableTickets < 2 ^ 31) :
    s.totalTickets slots 0 = s.runnableTickets := by
  rw [totalTickets_slots]
  have := h.sum_nonneg slots
  exact CInt.wrap_of_range (by unfold runnableTickets; omega) hT

theorem pickWinner_slots_iff (h : Holders s) (hT : s.runnableTickets < 2 ^ 31) {w : Int} (hw : 0 ≤ w) :
    s.pickWinner w slots 0 = some p ↔
      (s.proc p).state = .runnable ∧ s.ticketsBefore p ≤ w ∧ w < s.ticketsBefore p + (s.proc p).tickets := by
  obtain ⟨a, b, hab, hpa, hpb, hsum⟩ := slots_split p
  by_cases hp : (s.proc p).state = .runnable
  · have hlt : 0 + ((a ++ p :: b).map s.drawn).sum < 2 ^ 31 := by
      rw [zero_add, ← hab]
      exact hT
    rw [hab, pickWinner_eq_some_iff h hp hpa hpb le_rfl hw hlt, hsum, zero_add]
    exact (and_iff_right hp).symm
  · exact iff_of_false (fun hw => hp (pickWinner_some hw)) fun hw => hp hw.1

theorem Holders.interval (h : Holders s) (hp : (s.proc p).state = .runnable) :
    0 ≤ s.ticketsBefore p ∧ s.ticketsBefore p + (s.proc p).tickets ≤ s.runnableTickets := by
  obtain ⟨a, b, hab, -, -, hsum⟩ := slots_split p
  have ha := h.sum_nonneg a
  have hb := h.sum_nonneg b
  have hdp : s.drawn p = (s.proc p).tickets := if_pos hp
  rw [← hsum, runnableTickets, hab]
  simp only [List.map_append, List.sum_append, List.map_cons, List.sum_cons]
  omega

/-- A pass with a positive total stops at a RUNNABLE slot, whatever `random` returns. If all RUNNABLE processes
    hold tickets and their sum does not overflow, each wins with the values of its own interval of tickets, which
    are as many as it has. -/
theorem winner_selection (s : Ptable) (h : 0 < s.totalTickets slots 0) :
    (∀ r : Nat, ∃ p, s.pickWinner ((r : Int) % s.totalTickets slots 0) slots 0 = some p ∧
    (s.proc p).state = .runnable) ∧
      (Holders s → s.runnableTickets < 2 ^ 31 →
        (∀ w p, 0 ≤ w → w < s.totalTickets slots 0 → (s.pickWinner w slots 0 = some p ↔
          (s.proc p).state = .runnable ∧ s.ticketsBefore p ≤ w ∧ w < s.ticketsBefore p + (s.proc p).tickets)) ∧
        ∀ p, (s.proc p).state = .runnable →
          (#{w ∈ Ico 0 (s.totalTickets slots 0) | s.pickWinner w slots 0 = some p} : Int) = (s.proc p).tickets) := by
  refine ⟨fun r => ?_, fun hH hT => ⟨fun w p hw _ => pickWinner_slots_iff hH hT hw, fun p hp => ?_⟩⟩
  · obtain ⟨p, hp⟩ := pickWinner_isSome (Int.emod_nonneg (r : Int) h.ne') (Int.emod_lt_of_pos (r : Int) h)
    exact ⟨p, hp, pickWinner_some hp⟩
  · obtain ⟨h0, h1⟩ := hH.interval hp
    have hset : {w ∈ Ico 0 (s.totalTickets slots 0) | s.pickWinner w slots 0 = some p} =
        Ico (s.ticketsBefore p) (s.ticketsBefore p + (s.proc p).tickets) := by
      rw [hH.totalTickets hT]
      ext w
      rw [mem_filter, mem_Ico, mem_Ico]
      constructor
      · rintro ⟨⟨hw, -⟩, hpick⟩
        exact ((pickWinner_slots_iff hH hT hw).mp hpick).2
      · rintro ⟨hlo, hhi⟩
        exact ⟨⟨by omega, by omega⟩, (pickWinner_slots_iff hH hT (by omega)).mpr ⟨hp, hlo, hhi⟩⟩
    rw [hset, Int.card_Ico, add_sub_cancel_left, Int.toNat_of_nonneg (hH p hp).le]

/-- Two processes with 1 and 2 tickets: the draw of 5 makes the second one win, with 2. -/
theorem winner_selection_two : let s : Ptable := { proc := fun p => if p = 0 then { state := .runnable, tickets := 1 }
      else if p = 3 then { state := .runnable, tickets := 2 } else {} }
    0 < s.totalTickets slots 0 ∧ Holders s ∧ s.runnableTickets < 2 ^ 31 ∧ s.pickWinner (5 % 3) slots 0 = some 3 ∧
      (#{w ∈ Ico 0 (s.totalTickets slots 0) | s.pickWinner w slots 0 = some 3} : Int) = 2 := by
  intro s
  have h0 : 0 < s.totalTickets slots 0 := by decide
  have hH : Holders s := by decide
  have hT : s.runnableTickets < 2 ^ 31 := by decide
  exact ⟨h0, hH, hT, by decide, ((winner_selection s h0).2 hH hT).2 3 rfl⟩

def Pass.chosen : Pass → Option Slot
  | .dispatch p _ => some p
  | .idle | .overrun => none

theorem schedulerPass_chosen (h : Holders s) (hT : s.runnableTickets < 2 ^ 31) (hp : (s.proc p).state = .runnable) :
    s.schedulerPass.chosen = s.pickWinner ((random s.rseed : Int) % s.runnableTickets) slots 0 := by
  have h0 : 0 < s.runnableTickets := by
    obtain ⟨hlo, hhi⟩ := h.interval hp
    have := h p hp
    omega
  have htot := h.totalTickets hT
  simp only [schedulerPass, htot, if_neg (not_le.mpr h0)]
  split
  · next q hq => rw [hq, Pass.chosen]
  · next hq => rw [hq, Pass.chosen]

/-! ### The shares -/

/-- The tables in which consecutive draws are made while the RUNNABLE processes and their tickets stay the
    same. -/
structure Draws (f : Nat → Ptable) : Prop where
  runnable : ∀ i p, ((f i).proc p).state = .runnable ↔ ((f 0).proc p).state = .runnable
  tickets : ∀ i p, ((f 0).proc p).state = .runnable → ((f i).proc p).tickets = ((f 0).proc p).tickets
  rseed : ∀ i, (f (i + 1)).rseed = random (f i).rseed

def timesChosen (f : Nat → Ptable) (p : Slot) (n : Nat) : Nat := #{i ∈ range n | (f i).schedulerPass.chosen = some p}

namespace Draws
variable {f : Nat → Ptable}

theorem drawn_eq (h : Draws f) (i : Nat) : (f i).drawn = (f 0).drawn := by
  funext p
  unfold drawn
  by_cases hp : ((f 0).proc p).state = .runnable
  · rw [if_pos ((h.runnable i p).mpr hp), if_pos hp, h.tickets i p hp]
  · rw [if_neg fun hi => hp ((h.runnable i p).mp hi), if_neg hp]

theorem holders (h : Draws f) (h0 : Holders (f 0)) (i : Nat) : Holders (f i) := fun p hp => by
  have hp0 := (h.runnable i p).mp hp
  rw [h.tickets i p hp0]
  exact h0 p hp0

theorem rseed_eq (h : Draws f) (i : Nat) : random (f i).rseed = random^[i + 1] (f 0).rseed := by
  induction i with
  | zero => rw [zero_add, iterate_one]
  | succ i ih => rw [h.rseed i, ih, ← iterate_succ_apply' random]

theorem chosen_iff (h : Draws f) (h0 : Holders (f 0)) (hT : (f 0).runnableTickets < 2 ^ 31)
    (hp : ((f 0).proc p).state = .runnable) :
    ∃ lo t T : Nat, (t : Int) = ((f 0).proc p).tickets ∧ (T : Int) = (f 0).runnableTickets ∧ lo + t ≤ T ∧
      ∀ i, (f i).schedulerPass.chosen = some p ↔
        lo ≤ random^[i + 1] (f 0).rseed % T ∧ random^[i + 1] (f 0).rseed % T < lo + t := by
  obtain ⟨a, b, hab⟩ := List.append_of_mem (mem_slots p)
  have hnd : (a ++ p :: b).Nodup := hab ▸ List.nodup_finRange NPROC
  have hpa : p ∉ a := fun hm => (List.disjoint_of_nodup_append hnd) hm List.mem_cons_self
  have hpb : p ∉ b := (List.nodup_cons.mp (List.Nodup.of_append_right hnd)).1
  have hsplit : (f 0).runnableTickets = (a.map (f 0).drawn).sum +
    (((f 0).proc p).tickets + (b.map (f 0).drawn).sum) := by
    rw [runnableTickets, hab]
    simp [drawn, hp]
  have hlo := h0.sum_nonneg a
  have hb0 := h0.sum_nonneg b
  have hp0 := h0 p hp
  obtain ⟨lo, hlo'⟩ := Int.eq_ofNat_of_zero_le hlo
  obtain ⟨t, ht⟩ := Int.eq_ofNat_of_zero_le hp0.le
  obtain ⟨T, hT'⟩ := Int.eq_ofNat_of_zero_le (a := (f 0).runnableTickets) (by omega)
  refine ⟨lo, t, T, ht.symm, hT'.symm, by omega, fun i => ?_⟩
  have hdrawn := h.drawn_eq i
  have hrun : (f i).runnableTickets = (f 0).runnableTickets := by rw [runnableTickets, hdrawn, runnableTickets]
  have hpi := (h.runnable i p).mpr hp
  have hmod : 0 ≤ (random (f i).rseed : Int) % (f i).runnableTickets := Int.emod_nonneg _ (by omega)
  rw [schedulerPass_chosen (h.holders h0 i) (by omega) hpi, hab,
    pickWinner_eq_some_iff (h.holders h0 i) hpi hpa hpb le_rfl hmod, hdrawn, h.tickets i p hp, hrun, h.rseed_eq]
  · rw [hT', hlo', ht, zero_add]
    norm_cast
  · have hall : (((a ++ p :: b).map (f i).drawn).sum : Int) = (f i).runnableTickets := by rw [runnableTickets, hab]
    omega

end Draws

/-- From any seed below 2^31, any 2^31 consecutive calls of `random` return every value below 2^31 once. So among 2^31
    consecutive draws from the same RUNNABLE processes with a total of `T` tickets, a process with `t` of them is chosen
    at least `t * (2^31 / T)` and at most `t * (2^31 / T + 1)` times. -/
theorem lottery_fair : (∀ r < 2 ^ 31, ∀ m, ∀ v < 2 ^ 31, ∃! i, i < 2 ^ 31 ∧ random^[m + i + 1] r = v) ∧
    ∀ f, Draws f → (f 0).rseed < 2 ^ 31 → Holders (f 0) → (f 0).runnableTickets < 2 ^ 31 →
      ∀ p, ((f 0).proc p).state = .runnable →
        ((f 0).proc p).tickets * (2 ^ 31 / (f 0).runnableTickets) ≤ timesChosen f p (2 ^ 31) ∧
        timesChosen f p (2 ^ 31) ≤ ((f 0).proc p).tickets * (2 ^ 31 / (f 0).runnableTickets + 1) := by
  constructor
  · intro r _ m v hv
    have hshift : ∀ i, random^[m + i + 1] r = (Lcg.next 1103515245 12345 31)^[i + 1] (random^[m] r) := fun i => by
      rw [← random_iterate, ← iterate_add_apply, show i + 1 + m = m + i + 1 by omega]
    simp only [hshift]
    exact Lcg.existsUnique_draw (by norm_num) (by norm_num) hv
  · intro f hf _ h0 hT p hp
    obtain ⟨lo, t, T, ht, hTT, hle, hiff⟩ := hf.chosen_iff h0 hT hp
    have hcount : timesChosen f p (2 ^ 31) = #{v ∈ range (2 ^ 31) | lo ≤ v % T ∧ v % T < lo + t} := by
      have hdraw : ∀ i ∈ range (2 ^ 31), (f i).schedulerPass.chosen = some p ↔
          lo ≤ (Lcg.next 1103515245 12345 31)^[i + 1] (f 0).rseed % T ∧
            (Lcg.next 1103515245 12345 31)^[i + 1] (f 0).rseed % T < lo + t := fun i _ => by
        rw [hiff, random_iterate]
      rw [timesChosen, filter_congr hdraw]
      exact Lcg.card_draws (by norm_num) (by norm_num) fun v => lo ≤ v % T ∧ v % T < lo + t
    obtain ⟨hlow, hhigh⟩ := Lcg.card_mod_bounds (N := 2 ^ 31) hle
    rw [hcount, ← ht, ← hTT]
    exact ⟨by exact_mod_cast hlow, by exact_mod_cast hhigh⟩

/-- Two RUNNABLE processes with 30 tickets and 10, and the seed after `i` draws. -/
def threeToOne (i : Nat) : Ptable :=
  { proc := fun p =>
      if p = 0 then { state := .runnable, tickets := 30 } else if p = 1 then { state := .runnable, tickets := 10 }
      else {}
    rseed := random^[i] 1898888478 }

/-- In a period the first is chosen in three draws of four, up to 30. -/
theorem lottery_fair_threeToOne :
    1610612730 ≤ timesChosen threeToOne 0 (2 ^ 31) ∧ timesChosen threeToOne 0 (2 ^ 31) ≤ 1610612760 := by
  have hT : (threeToOne 0).runnableTickets = 40 := by decide +kernel
  have hdraws : Draws threeToOne :=
    ⟨fun _ _ => Iff.rfl, fun _ _ _ => rfl, fun i => iterate_succ_apply' random i 1898888478⟩
  have hpos : Holders (threeToOne 0) := by decide +kernel
  have h := lottery_fair.2 threeToOne hdraws (by decide +kernel) hpos (by rw [hT]; norm_num) 0 (by decide +kernel)
  have ht : ((threeToOne 0).proc 0).tickets = 30 := by decide +kernel
  rw [hT, ht] at h
  generalize timesChosen threeToOne 0 (2 ^ 31) = n at h ⊢
  norm_num at h
  omega

end Ptable
end Xv6
