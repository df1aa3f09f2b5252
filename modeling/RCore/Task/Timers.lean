import Mathlib.Data.List.Perm.Basic
import RCore.Task.Effects

/-!
# Timers

`check_timer` pops the heap until its top is not due.  The heap is ordered by the
negated signed value of the unsigned, possibly wrapped, expiry time, so the top is
the earliest timer only while every expiry time is at most `2 ^ 63`.
-/

namespace RCore.Task

open List

inductive Board where
  | qemu
  | k210
  deriving DecidableEq, Repr

def Board.clockFreq : Board → Nat
  | qemu => 12500000
  | k210 => 403000000 / 62

def msecPerSec : Nat := 1000

/-- `time` is the value of the time register. -/
def getTimeMs (board : Board) (time : Nat) : Nat :=
  time / (board.clockFreq / msecPerSec)

/-- A thread that called `sys_sleep(ms)` at the time `calledMs`. -/
structure Sleeper where
  calledMs : Nat
  ms : Nat
  task : Nat
  deriving DecidableEq, Repr

namespace Sleeper

/-- When the thread should wake up, as a natural number. -/
def expiry (sleeper : Sleeper) : Nat :=
  sleeper.calledMs + sleeper.ms

/-- What `sys_sleep` puts into the heap. -/
def timer (sleeper : Sleeper) : TimerCondVar where
  expireMs := (sleeper.calledMs + sleeper.ms) % 2 ^ 64
  task := sleeper.task

end Sleeper

/-- The heap holds the timers of these threads. -/
def Sleeping (σ : Kernel) (sleepers : List Sleeper) : Prop :=
  σ.timers.Perm (sleepers.map Sleeper.timer)

/-- `check_timer` ends, and it moves exactly the threads that are due to the ready
queue, in the order in which they expire. -/
def WakesDue (nowMs : Nat) (sleepers : List Sleeper) (σ : Kernel) : Prop :=
  (∃ σ', CheckTimer nowMs σ σ') ∧ ∀ σ', CheckTimer nowMs σ σ' →
    ∃ woken : List Sleeper, woken.Perm (sleepers.filter (·.expiry ≤ nowMs)) ∧
      woken.Pairwise (·.expiry ≤ ·.expiry) ∧
      σ'.readyQueue = σ.readyQueue ++ woken.map (·.task) ∧
      Sleeping σ' (sleepers.filter (¬·.expiry ≤ nowMs))

theorem getTimeMs_lt (board : Board) {time : Nat} (h : time < 2 ^ 64) :
    getTimeMs board time < 2 ^ 52 := by
  rw [getTimeMs]
  apply Nat.div_lt_of_lt_mul
  cases board <;> simp only [Board.clockFreq, msecPerSec] <;> omega

/-! ## The order of the heap -/

variable {timer : TimerCondVar}

theorem key_of_le (h : timer.expireMs ≤ 2 ^ 63) : timer.key = -timer.expireMs := by
  rw [TimerCondVar.key]
  rcases Nat.lt_or_eq_of_le h with hlt | heq
  · rw [wrapIsize_eq (x := timer.expireMs) (by omega) (by omega),
      wrapIsize_eq (by omega) (by omega)]
  · -- the smallest signed number is its own negation
    rw [heq]
    decide +kernel

theorem key_pos (h : 2 ^ 63 < timer.expireMs) (hlt : timer.expireMs < 2 ^ 64) :
    0 < timer.key := by
  have hwrap : wrapIsize timer.expireMs = timer.expireMs - 2 ^ 64 := by
    rw [wrapIsize, Int.bmod_def]
    omega
  rw [TimerCondVar.key, hwrap, wrapIsize_eq (by omega) (by omega)]
  omega

theorem exists_isPeek {timers : List TimerCondVar} (h : timers ≠ []) :
    ∃ timer, IsPeek timers timer := by
  induction timers with
  | nil => exact absurd rfl h
  | cons first rest ih =>
    rcases eq_or_ne rest [] with rfl | hrest
    · exact ⟨first, by simp [IsPeek]⟩
    · obtain ⟨top, htop, hgreatest⟩ := ih hrest
      rcases Int.le_total first.key top.key with hle | hle
      · refine ⟨top, mem_cons_of_mem _ htop, fun other hother => ?_⟩
        rcases mem_cons.mp hother with rfl | hother
        · exact hle
        · exact hgreatest other hother
      · refine ⟨first, mem_cons_self, fun other hother => ?_⟩
        rcases mem_cons.mp hother with rfl | hother
        · exact Int.le_refl _
        · exact Int.le_trans (hgreatest other hother) hle

section CheckTimer

variable {nowMs : Nat} {σ σ' : Kernel}

/-- The loop of `check_timer` ends: every round takes a timer out. -/
theorem exists_checkTimer (nowMs : Nat) (σ : Kernel) : ∃ σ', CheckTimer nowMs σ σ' := by
  induction hlen : σ.timers.length generalizing σ with
  | zero => exact ⟨σ, .empty (length_eq_zero_iff.mp hlen)⟩
  | succ n ih =>
    obtain ⟨top, hpeek⟩ := exists_isPeek (ne_nil_of_length_eq_add_one hlen)
    by_cases hdue : top.expireMs ≤ nowMs
    · obtain ⟨σ', hrest⟩ := ih ({ σ with timers := σ.timers.erase top }.addTask top.task) (by
        simp [Kernel.addTask, length_erase_of_mem hpeek.1, hlen])
      exact ⟨σ', .pop hpeek hdue hrest⟩
    · exact ⟨σ, .stop hpeek hdue⟩

/-- While no expiry time is above `2 ^ 63` the heap is drained in order. -/
theorem checkTimer_drains (h : CheckTimer nowMs σ σ')
    (hsmall : ∀ timer ∈ σ.timers, timer.expireMs ≤ 2 ^ 63) :
    ∃ popped : List TimerCondVar, σ.timers.Perm (popped ++ σ'.timers) ∧
      σ'.readyQueue = σ.readyQueue ++ popped.map (·.task) ∧
      popped.Pairwise (·.expireMs ≤ ·.expireMs) ∧
      (∀ timer ∈ popped, timer.expireMs ≤ nowMs) ∧
      ∀ timer ∈ σ'.timers, nowMs < timer.expireMs := by
  induction h with
  | empty hempty => exact ⟨[], by simp, by simp, by simp, by simp, by simp [hempty]⟩
  | @stop σ top hpeek hlater =>
    refine ⟨[], by simp, by simp, by simp, by simp, fun timer htimer => ?_⟩
    have hkey := hpeek.2 timer htimer
    rw [key_of_le (hsmall timer htimer), key_of_le (hsmall top hpeek.1)] at hkey
    omega
  | @pop σ σ' top hpeek hdue hrest ih =>
    obtain ⟨popped, hperm, hready, hsorted, hpopped, hleft⟩ :=
      ih fun timer htimer => hsmall timer (mem_of_mem_erase htimer)
    refine ⟨top :: popped, ?_, ?_, ?_, ?_, hleft⟩
    · exact (perm_cons_erase hpeek.1).trans (hperm.cons top)
    · simpa [Kernel.addTask] using hready
    · refine pairwise_cons.mpr ⟨fun timer htimer => ?_, hsorted⟩
      have hmem : timer ∈ σ.timers :=
        mem_of_mem_erase (hperm.mem_iff.mpr (mem_append_left _ htimer))
      have hkey := hpeek.2 timer hmem
      rw [key_of_le (hsmall timer hmem), key_of_le (hsmall top hpeek.1)] at hkey
      omega
    · intro timer htimer
      rcases mem_cons.mp htimer with rfl | htimer
      · exact hdue
      · exact hpopped timer htimer

/-- A timer above `2 ^ 63` is taken for a negative number, stays on top and hides
all the others. -/
theorem checkTimer_hidden (h : CheckTimer nowMs σ σ') (hnow : nowMs < 2 ^ 63)
    (hlt : ∀ timer ∈ σ.timers, timer.expireMs < 2 ^ 64)
    (hbig : ∃ timer ∈ σ.timers, 2 ^ 63 < timer.expireMs) : σ' = σ := by
  cases h with
  | empty hempty => rfl
  | stop hpeek hlater => rfl
  | @pop _ _ top hpeek hdue hrest =>
    obtain ⟨timer, htimer, hbig⟩ := hbig
    have hkey := hpeek.2 timer htimer
    have hpos := key_pos hbig (hlt timer htimer)
    have htop : top.key = -top.expireMs := key_of_le (by omega)
    omega

end CheckTimer

/-! ## Which sleepers wake up -/

section Sleepers

variable {nowMs : Nat} {sleepers : List Sleeper} {σ σ' : Kernel}

theorem exists_map_timer_eq {timers : List TimerCondVar}
    (h : timers.Perm (sleepers.map Sleeper.timer)) :
    ∃ woken : List Sleeper, woken.Perm sleepers ∧ woken.map Sleeper.timer = timers := by
  have hmap : Forall₂ (fun timer sleeper => timer = Sleeper.timer sleeper)
      (sleepers.map Sleeper.timer) sleepers :=
    forall₂_map_left_iff.mpr (forall₂_same.mpr fun _ _ => rfl)
  obtain ⟨woken, hwoken, hperm⟩ := perm_comp_forall₂ h hmap
  refine ⟨woken, hperm, ?_⟩
  rw [← forall₂_map_right_iff, forall₂_eq_eq_eq] at hwoken
  exact hwoken.symm

variable {sleeper : Sleeper}

theorem expireMs_timer (h : sleeper.expiry < 2 ^ 64) : sleeper.timer.expireMs = sleeper.expiry :=
  Nat.mod_eq_of_lt h

theorem filter_map_timer (p : Nat → Bool)
    (h : ∀ sleeper ∈ sleepers, sleeper.expiry < 2 ^ 64) :
    (sleepers.map Sleeper.timer).filter (p ·.expireMs) =
      (sleepers.filter (p ·.expiry)).map Sleeper.timer := by
  rw [filter_map]
  congr 1
  refine filter_congr fun sleeper hsleeper => ?_
  rw [Function.comp_apply, expireMs_timer (h sleeper hsleeper)]

theorem wakesDue_of_le (hsleeping : Sleeping σ sleepers)
    (h : ∀ sleeper ∈ sleepers, sleeper.expiry ≤ 2 ^ 63) : WakesDue nowMs sleepers σ := by
  refine ⟨exists_checkTimer nowMs σ, fun σ' hcheck => ?_⟩
  have hlt : ∀ sleeper ∈ sleepers, sleeper.expiry < 2 ^ 64 := fun sleeper hsleeper =>
    Nat.lt_of_le_of_lt (h sleeper hsleeper) (by decide)
  obtain ⟨popped, hperm, hready, hsorted, hpopped, hleft⟩ := checkTimer_drains hcheck (by
    intro timer htimer
    obtain ⟨sleeper, hsleeper, rfl⟩ := mem_map.mp (hsleeping.mem_iff.mp htimer)
    rw [expireMs_timer (hlt sleeper hsleeper)]
    exact h sleeper hsleeper)
  -- the popped timers are the due ones and the others stay
  have hdue : popped.Perm ((sleepers.filter (·.expiry ≤ nowMs)).map Sleeper.timer) := by
    have hfilter := (hperm.symm.trans hsleeping).filter (·.expireMs ≤ nowMs)
    rw [filter_map_timer (· ≤ nowMs) hlt, filter_append,
      filter_eq_self.mpr (by simpa using hpopped),
      filter_eq_nil_iff.mpr (by simpa using hleft), append_nil] at hfilter
    exact hfilter
  have hrest : Sleeping σ' (sleepers.filter (¬·.expiry ≤ nowMs)) := by
    have hfilter := (hperm.symm.trans hsleeping).filter (¬·.expireMs ≤ nowMs)
    rw [filter_map_timer (¬· ≤ nowMs) hlt, filter_append,
      filter_eq_nil_iff.mpr (by simpa using hpopped),
      filter_eq_self.mpr (by simpa using hleft), nil_append] at hfilter
    exact hfilter
  obtain ⟨woken, hwoken, rfl⟩ := exists_map_timer_eq hdue
  refine ⟨woken, hwoken, ?_, ?_, hrest⟩
  · refine (pairwise_map.mp hsorted).imp_of_mem fun ha hb hle => ?_
    have hmem {sleeper : Sleeper} (hs : sleeper ∈ woken) : sleeper ∈ sleepers :=
      mem_of_mem_filter (hwoken.mem_iff.mp hs)
    rwa [expireMs_timer (hlt _ (hmem ha)), expireMs_timer (hlt _ (hmem hb))] at hle
  · rw [hready, map_map]
    rfl

theorem not_wakesDue_of_wrapped (hsmall : ∀ timer ∈ σ.timers, timer.expireMs ≤ 2 ^ 63)
    (hmem : sleeper ∈ sleepers) (hcalled : sleeper.calledMs ≤ nowMs) (hnow : nowMs < 2 ^ 63)
    (hms : sleeper.ms < 2 ^ 64) (hwrapped : 2 ^ 64 ≤ sleeper.expiry) :
    ¬WakesDue nowMs sleepers σ := by
  rintro ⟨⟨σ', hcheck⟩, hexact⟩
  obtain ⟨-, -, -, -, -, hleft⟩ := checkTimer_drains hcheck hsmall
  obtain ⟨-, -, -, -, hrest⟩ := hexact σ' hcheck
  have hstays : sleeper.timer ∈ σ'.timers := by
    refine hrest.mem_iff.mpr (mem_map_of_mem (mem_filter.mpr ⟨hmem, ?_⟩))
    simp only [decide_not, Bool.not_eq_true', decide_eq_false_iff_not]
    omega
  have hlater := hleft _ hstays
  rw [Sleeper.expiry] at hwrapped
  simp only [Sleeper.timer] at hlater
  omega

theorem exists_timer_of_expiry (hsleeping : Sleeping σ sleepers) (hmem : sleeper ∈ sleepers)
    (hlt : sleeper.expiry < 2 ^ 64) : ∃ timer ∈ σ.timers, timer.expireMs = sleeper.expiry :=
  ⟨sleeper.timer, hsleeping.mem_iff.mpr (mem_map_of_mem hmem), expireMs_timer hlt⟩

theorem expireMs_lt (hsleeping : Sleeping σ sleepers) :
    ∀ timer ∈ σ.timers, timer.expireMs < 2 ^ 64 := by
  intro timer htimer
  obtain ⟨sleeper, -, rfl⟩ := mem_map.mp (hsleeping.mem_iff.mp htimer)
  exact Nat.mod_lt _ (by decide)

/-- A sleeper between `2 ^ 63` and `2 ^ 64` keeps all others asleep. -/
theorem wakesDue_iff_of_hidden (hsleeping : Sleeping σ sleepers) (hnow : nowMs < 2 ^ 63)
    (hmem : sleeper ∈ sleepers) (hbig : 2 ^ 63 < sleeper.expiry) (hlt : sleeper.expiry < 2 ^ 64) :
    WakesDue nowMs sleepers σ ↔ ∀ sleeper ∈ sleepers, nowMs < sleeper.expiry := by
  have hhidden : ∀ σ', CheckTimer nowMs σ σ' → σ' = σ := by
    intro σ' hcheck
    obtain ⟨timer, htimer, hexpire⟩ := exists_timer_of_expiry hsleeping hmem hlt
    exact checkTimer_hidden hcheck hnow (expireMs_lt hsleeping) ⟨timer, htimer, hexpire ▸ hbig⟩
  constructor
  · rintro ⟨⟨σ', hcheck⟩, hexact⟩ other hother
    obtain rfl := hhidden σ' hcheck
    obtain ⟨woken, hwoken, -, hready, -⟩ := hexact _ hcheck
    obtain rfl : woken = [] := by simpa using hready
    have hnone := filter_eq_nil_iff.mp hwoken.symm.eq_nil other hother
    simpa using hnone
  · intro hlater
    refine ⟨exists_checkTimer nowMs σ, fun σ' hcheck => ?_⟩
    obtain rfl := hhidden σ' hcheck
    have hnone : sleepers.filter (·.expiry ≤ nowMs) = [] :=
      filter_eq_nil_iff.mpr (by simpa using hlater)
    have hall : sleepers.filter (¬·.expiry ≤ nowMs) = sleepers :=
      filter_eq_self.mpr (by simpa using hlater)
    exact ⟨[], by simp [hnone], by simp, by simp, by rwa [hall]⟩

/-- `check_timer` wakes exactly the sleepers that are due if and only if no expiry
time is above `2 ^ 63`, or one between `2 ^ 63` and `2 ^ 64` hides the heap when
nobody is due anyway. -/
theorem check_timer_wakes_due_iff (board : Board) {time : Nat} (htime : time < 2 ^ 64)
    (hcalled : ∀ sleeper ∈ sleepers, sleeper.calledMs ≤ getTimeMs board time)
    (hms : ∀ sleeper ∈ sleepers, sleeper.ms < 2 ^ 64) (hsleeping : Sleeping σ sleepers) :
    WakesDue (getTimeMs board time) sleepers σ ↔
      (∀ sleeper ∈ sleepers, sleeper.expiry ≤ 2 ^ 63) ∨
        (∃ sleeper ∈ sleepers, 2 ^ 63 < sleeper.expiry ∧ sleeper.expiry < 2 ^ 64) ∧
          ∀ sleeper ∈ sleepers, getTimeMs board time < sleeper.expiry := by
  have hnow : getTimeMs board time < 2 ^ 63 :=
    Nat.lt_trans (getTimeMs_lt board htime) (by decide)
  by_cases hbig : ∃ sleeper ∈ sleepers, 2 ^ 63 < sleeper.expiry ∧ sleeper.expiry < 2 ^ 64
  · obtain ⟨sleeper, hmem, hlow, hlt⟩ := hbig
    rw [wakesDue_iff_of_hidden hsleeping hnow hmem hlow hlt]
    constructor
    · exact fun hlater => .inr ⟨⟨sleeper, hmem, hlow, hlt⟩, hlater⟩
    · rintro (hle | ⟨-, hlater⟩)
      · exact absurd (hle sleeper hmem) (by omega)
      · exact hlater
  · constructor
    · intro hwakes
      refine .inl fun sleeper hmem => ?_
      by_contra habove
      -- above `2 ^ 63` and not hiding the others means wrapped
      have hwrapped : 2 ^ 64 ≤ sleeper.expiry := by
        by_contra hlt
        exact hbig ⟨sleeper, hmem, by omega, by omega⟩
      refine not_wakesDue_of_wrapped ?_ hmem (hcalled sleeper hmem) hnow
        (hms sleeper hmem) hwrapped hwakes
      intro timer htimer
      obtain ⟨other, hother, rfl⟩ := List.mem_map.mp (hsleeping.mem_iff.mp htimer)
      have hcall := hcalled other hother
      have hothers := hms other hother
      have hnot : ¬(2 ^ 63 < other.expiry ∧ other.expiry < 2 ^ 64) :=
        fun h => hbig ⟨other, hother, h⟩
      rw [Sleeper.expiry] at hnot
      simp only [Sleeper.timer]
      omega
    · rintro (hle | ⟨hexists, -⟩)
      · exact wakesDue_of_le hsleeping hle
      · exact absurd hexists hbig

/-- Two threads that sleep for 10 ms and for a second; the first is due. -/
theorem check_timer_wakes_due_iff_second : ∃ σ : Kernel,
    Sleeping σ [⟨0, 10, 1⟩, ⟨0, 1000, 0⟩] ∧
      (WakesDue (getTimeMs .qemu 125000) [⟨0, 10, 1⟩, ⟨0, 1000, 0⟩] σ) := by
  obtain ⟨σ, -, hsleeping⟩ : ∃ σ, Kernel.boot.performAll Kernel.syncEvents
      [.runTasks, .syscall .threadCreate, .syscall (.sleep 0 1000), .runTasks,
        .syscall (.sleep 0 10)] = some ([], σ) ∧ Sleeping σ [⟨0, 10, 1⟩, ⟨0, 1000, 0⟩] :=
    ⟨_, rfl, List.Perm.refl _⟩
  refine ⟨σ, hsleeping, (check_timer_wakes_due_iff .qemu (by decide) ?_ ?_ hsleeping).mpr ?_⟩
  · decide
  · decide
  · exact .inl (by decide)

/-- Thread 0 sleeps for `2 ^ 63 + 1` ms from time 0 on and thread 1 for 10 ms: when
10 ms have passed, thread 1 is not woken. -/
theorem long_sleep_hides_others : ∃ σ : Kernel, Kernel.Reachable σ ∧
    Sleeping σ [⟨0, 10, 1⟩, ⟨0, 2 ^ 63 + 1, 0⟩] ∧
      ¬WakesDue (getTimeMs .qemu 125000) [⟨0, 10, 1⟩, ⟨0, 2 ^ 63 + 1, 0⟩] σ := by
  have htimers : (Kernel.boot.performAll Kernel.syncEvents [.runTasks, .syscall .threadCreate,
      .syscall (.sleep 0 (2 ^ 63 + 1)), .runTasks, .syscall (.sleep 0 10)]).map (·.2.timers) =
        some ([⟨0, 10, 1⟩, ⟨0, 2 ^ 63 + 1, 0⟩].map Sleeper.timer) := by decide +kernel
  obtain ⟨⟨trace, σ⟩, hperform, hsleepers⟩ := Option.map_eq_some_iff.mp htimers
  have hsleeping : Sleeping σ [⟨0, 10, 1⟩, ⟨0, 2 ^ 63 + 1, 0⟩] := .of_eq hsleepers
  have hmem : ⟨0, 2 ^ 63 + 1, 0⟩ ∈ [⟨0, 10, 1⟩, (⟨0, 2 ^ 63 + 1, 0⟩ : Sleeper)] := by simp
  refine ⟨σ, (Kernel.traced_of_performAll _ hperform).reachable, hsleeping, fun hwakes => ?_⟩
  have hlater := (wakesDue_iff_of_hidden hsleeping (by decide) hmem (by decide)
    (by decide)).mp hwakes ⟨0, 10, 1⟩ (by simp)
  exact absurd hlater (by decide)

end Sleepers

end RCore.Task
