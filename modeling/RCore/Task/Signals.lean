import RCore.Task.ProcessRuns

/-!
# Pending signals

Every signal that `sys_kill` accepts is fatal, and no system call takes a pending
signal away: a process that has one keeps it until its control block is freed.
-/

namespace RCore.Task

open Option

namespace SignalFlags

variable {s t : SignalFlags}

/-- `check_error` finds something. -/
def Fatal (self : SignalFlags) : Prop :=
  self.checkError ≠ none

theorem contains_twoPow (s : SignalFlags) {k : Nat} (hk : k < 32) :
    s.contains (BitVec.twoPow 32 k) = s.getLsbD k := by
  have hne : (0 : SignalFlags) ≠ BitVec.twoPow 32 k := by
    intro heq
    have hbit := congrArg (·.getLsbD k) heq
    simp [hk] at hbit
  rw [contains, BitVec.and_twoPow]
  cases s.getLsbD k with
  | true => simp
  | false => simpa using hne

theorem fatal_iff : s.Fatal ↔ s.getLsbD 2 = true ∨ s.getLsbD 4 = true ∨ s.getLsbD 6 = true ∨
    s.getLsbD 8 = true ∨ s.getLsbD 11 = true := by
  have hint : s.contains SIGINT = s.getLsbD 2 := s.contains_twoPow (by decide)
  have hill : s.contains SIGILL = s.getLsbD 4 := s.contains_twoPow (by decide)
  have habrt : s.contains SIGABRT = s.getLsbD 6 := s.contains_twoPow (by decide)
  have hfpe : s.contains SIGFPE = s.getLsbD 8 := s.contains_twoPow (by decide)
  have hsegv : s.contains SIGSEGV = s.getLsbD 11 := s.contains_twoPow (by decide)
  rw [Fatal, checkError, hint, hill, habrt, hfpe, hsegv]
  cases s.getLsbD 2 <;> cases s.getLsbD 4 <;> cases s.getLsbD 6 <;> cases s.getLsbD 8 <;>
    cases s.getLsbD 11 <;> simp

theorem Fatal.or_left (h : s.Fatal) (t : SignalFlags) : (s ||| t).Fatal := by
  rw [fatal_iff] at h ⊢
  simp only [BitVec.getLsbD_or, Bool.or_eq_true]
  tauto

theorem fatal_of_valid (hvalid : all.contains t = true) (hne : t ≠ 0) : t.Fatal := by
  have hbits : ∀ i < 32, all.getLsbD i = true → i = 2 ∨ i = 4 ∨ i = 6 ∨ i = 8 ∨ i = 11 := by
    decide
  by_contra hclean
  apply hne
  rw [fatal_iff] at hclean
  rw [contains, decide_eq_true_eq] at hvalid
  apply BitVec.eq_of_getLsbD_eq
  intro i hi
  rw [← hvalid, BitVec.getLsbD_and]
  change (all.getLsbD i && t.getLsbD i) = (0#32).getLsbD i
  rw [BitVec.getLsbD_zero]
  cases hall : all.getLsbD i with
  | false => rfl
  | true =>
    simp only [not_or, Bool.not_eq_true] at hclean
    obtain ⟨hint, hill, habrt, hfpe, hsegv⟩ := hclean
    rcases hbits i hi hall with rfl | rfl | rfl | rfl | rfl
    · rw [hint, Bool.and_false]
    · rw [hill, Bool.and_false]
    · rw [habrt, Bool.and_false]
    · rw [hfpe, Bool.and_false]
    · rw [hsegv, Bool.and_false]

end SignalFlags

namespace ProcessTree

variable {σ σ' : ProcessTree} {i : Nat} {process : ProcessControlBlock}

/-- What the calls of a run do to the processes: `new` of them are created, live; the old
ones have at least the signals they had; and a live one stays so unless it exits. -/
structure Grows (σ σ' : ProcessTree) (new : Nat) (events : List Event) : Prop where
  run : ∀ log, Run σ log → ∃ log', Run σ' log'
  length : σ'.processes.length = σ.processes.length + new
  signals : ∀ k p', k < σ.processes.length → σ'.get k = some p' →
    ∃ p flags, σ.get k = some p ∧ p'.signals = p.signals ||| flags
  live : ∀ k p, σ.Live k p → (∀ code, .exited k code ∉ events) → ∃ p', σ'.Live k p'
  fresh : ∀ k, σ.processes.length ≤ k → k < σ'.processes.length → ∃ p', σ'.Live k p'

theorem lt_length_of_live (h : σ.Live i process) : i < σ.processes.length := by
  have hcell := get_eq_some.mp h.1
  exact (List.getElem?_eq_some_iff.mp hcell).1

theorem exists_or_self (signals : SignalFlags) : ∃ flags, signals = signals ||| flags :=
  ⟨0, BitVec.or_zero.symm⟩

theorem Grows.refl (σ : ProcessTree) : Grows σ σ 0 [] where
  run := fun log hrun => ⟨log, hrun⟩
  length := rfl
  signals := fun _ p' _ hget => ⟨p', 0, hget, BitVec.or_zero.symm⟩
  live := fun _ p hlive _ => ⟨p, hlive⟩
  fresh := fun _ hge hlt => absurd hlt (Nat.not_lt.mpr hge)

theorem Grows.of_cells {new : Nat} {events : List Event} (hstep : Step σ events σ')
    (hlen : σ'.processes.length = σ.processes.length + new)
    (hfresh : ∀ k, σ.processes.length ≤ k → k < σ'.processes.length → ∃ p', σ'.Live k p')
    (hcell : ∀ k < σ.processes.length, (σ'.get k = none ∧ ∀ p, ¬σ.Live k p) ∨
      ∃ g, σ'.get k = (σ.get k).map g ∧
        ∀ p, ((∀ code, .exited k code ∉ events) → (g p).isZombie = p.isZombie) ∧
          ∃ flags, (g p).signals = p.signals ||| flags) :
    Grows σ σ' new events where
  run := fun log hrun => ⟨_, hrun.step hstep⟩
  length := hlen
  signals := by
    intro k p' hk hget
    rcases hcell k hk with ⟨hnone, -⟩ | ⟨g, hmap, hg⟩
    · simp [hnone] at hget
    · rw [hmap] at hget
      obtain ⟨p, hp, rfl⟩ := map_eq_some_iff.mp hget
      obtain ⟨flags, hflags⟩ := (hg p).2
      exact ⟨p, flags, hp, hflags⟩
  live := by
    intro k p hlive hstays
    rcases hcell k (lt_length_of_live hlive) with ⟨-, hdead⟩ | ⟨g, hmap, hg⟩
    · exact absurd hlive (hdead p)
    · refine ⟨g p, ?_, ((hg p).1 hstays).trans hlive.2⟩
      rw [hmap, hlive.1]
      rfl
  fresh := hfresh

theorem Grows.update {f : ProcessControlBlock → ProcessControlBlock}
    (hstep : Step σ [] (σ.update i f)) (hzombie : ∀ p, (f p).isZombie = p.isZombie)
    (hsignals : ∀ p, ∃ flags, (f p).signals = p.signals ||| flags) :
    Grows σ (σ.update i f) 0 [] := by
  refine .of_cells hstep (length_processes_update σ i f) (fun k hge hlt => ?_) fun k _ => .inr ?_
  · rw [length_processes_update] at hlt
    omega
  · rw [get_update]
    by_cases hk : i = k
    · exact ⟨f, if_pos hk, fun p => ⟨fun _ => hzombie p, hsignals p⟩⟩
    · exact ⟨id, by rw [if_neg hk, map_id, id], fun p => ⟨fun _ => rfl, exists_or_self _⟩⟩

theorem grows_sysExec (hlive : σ.Live i process) (image : Option (UserMemory × Nat)) :
    Grows σ (σ.sysExec i image).1 0 [] := by
  cases image with
  | none => exact .refl σ
  | some image =>
    refine .update (.exec hlive (some image)) ?_ ?_
    · exact fun p => rfl
    · exact fun p => exists_or_self _

theorem grows_sysKill (hlive : σ.Live i process) (pid : Nat) (signal : SignalFlags) :
    Grows σ (σ.sysKill pid signal).1 0 [] := by
  have hstep := Step.kill hlive pid signal
  rw [sysKill] at hstep ⊢
  split
  · exact .refl σ
  · next target htarget =>
    split
    · exact .refl σ
    · next flag hflag =>
      rw [htarget] at hstep
      simp only [hflag] at hstep
      refine .update hstep ?_ ?_
      · exact fun p => rfl
      · exact fun p => ⟨flag, rfl⟩

theorem grows_currentAddSignal (hlive : σ.Live i process) (signal : SignalFlags) :
    Grows σ (σ.currentAddSignal i signal) 0 [] := by
  refine .update (.fault hlive signal) ?_ ?_
  · exact fun p => rfl
  · exact fun p => ⟨signal, rfl⟩

theorem grows_sysFork (h : Inv σ) (hlive : σ.Live i process) {result : Int}
    (hfork : σ.sysFork i = .ok (σ', result)) : Grows σ σ' 1 [] := by
  rcases sysFork_eq h hlive.1 with hfull | ⟨σ₁, child, heq, hforked⟩
  · rw [hfull] at hfork
    cases hfork
  · have hstep := Step.fork hlive hfork
    obtain ⟨rfl, -⟩ := Prod.mk.inj (Except.ok.inj (hfork.symm.trans heq))
    refine .of_cells hstep hforked.length (fun k hge hlt => ?_) fun k hk => .inr ?_
    · rw [hforked.length] at hlt
      obtain rfl : k = σ.processes.length := by omega
      exact ⟨child, hforked.get_new, hforked.isZombie⟩
    · obtain ⟨children, hget⟩ := hforked.get_old hlive.1 (Nat.ne_of_lt hk)
      exact ⟨_, hget, fun p => ⟨fun _ => rfl, exists_or_self _⟩⟩

theorem grows_exitCurrentAndRunNext (h : Inv σ) (hlive : σ.Live i process) {exitCode : Int}
    (hexit : σ.exitCurrentAndRunNext i exitCode = .ok σ') :
    Grows σ σ' 0 [.exited i exitCode] := by
  obtain ⟨σ₁, heq, hexited⟩ :=
    exitCurrentAndRunNext_eq h hlive.1 hlive.2 (ne_initproc_of_exit hexit) exitCode
  have hstep := Step.exit hlive exitCode hexit
  obtain rfl := Except.ok.inj (hexit.symm.trans heq)
  refine .of_cells hstep hexited.length (fun k hge hlt => ?_) fun k hk => .inr ?_
  · rw [hexited.length] at hlt
    omega
  · by_cases hki : k = i
    · subst hki
      refine ⟨fun p => { p with isZombie := true, exitCode := exitCode, children := [] }, ?_,
        fun p => ⟨fun hstays => ?_, exists_or_self _⟩⟩
      · rw [hexited.get_self, hlive.1]
        rfl
      · exact absurd (List.mem_singleton.mpr rfl) (hstays exitCode)
    · obtain ⟨parent, children, hget⟩ := hexited.get_old hki
      exact ⟨_, hget, fun p => ⟨fun _ => rfl, exists_or_self _⟩⟩

theorem grows_sysWaitpid (h : Inv σ) (hlive : σ.Live i process) {pid : Int} {exitCodePtr : Nat}
    {result : Int} (hwait : σ.sysWaitpid i pid exitCodePtr = .ok (σ', result)) :
    ∃ events, Grows σ σ' 0 events ∧ ∀ k code, .exited k code ∉ events := by
  cases hfind : σ.findExited process.children pid with
  | none =>
    obtain ⟨result', heq⟩ := sysWaitpid_of_findExited_none h hlive.1 hfind
    obtain ⟨rfl, -⟩ := Prod.mk.inj (Except.ok.inj (hwait.symm.trans heq))
    exact ⟨[], .refl σ', fun _ _ => List.not_mem_nil⟩
  | some index =>
    obtain ⟨-, -, child, hchild, hz⟩ := findExited_eq_some hfind
    have hexited := sysWaitpid_exited h hlive.1 exitCodePtr hfind hchild
    cases hwrite : writeExitCode process.memory exitCodePtr child.exitCode with
    | error panic =>
      simp only [hwrite, hwait] at hexited
      cases hexited
    | ok memory =>
      simp only [hwrite] at hexited
      obtain ⟨σ₁, heq, hreap⟩ := hexited
      obtain ⟨rfl, -⟩ := Prod.mk.inj (Except.ok.inj (hwait.symm.trans heq))
      have hcode : memory exitCodePtr = some child.exitCode := by
        rw [writeExitCode_eq hwrite]
        exact if_pos rfl
      refine ⟨_, .of_cells (.waitpid hlive hfind hwait hreap.get_self hcode) hreap.length
        (fun k hge hlt => ?_) (fun k hk => ?_), fun k code => by simp⟩
      · rw [hreap.length] at hlt
        omega
      · by_cases hki : k = index
        · subst hki
          refine .inl ⟨hreap.get_child, fun p hp => ?_⟩
          obtain rfl := Option.some.inj (hchild.symm.trans hp.1)
          exact Bool.false_ne_true (hp.2.symm.trans hz)
        · obtain ⟨children, memory', hget⟩ := hreap.get_old hlive.1 hki
          exact .inr ⟨_, hget, fun p => ⟨fun _ => rfl, exists_or_self _⟩⟩

/-- The process has a fatal signal, or has been freed. -/
def Doomed (σ : ProcessTree) (i : Nat) : Prop :=
  i < σ.processes.length ∧ ∀ process, σ.get i = some process → process.signals.Fatal

theorem Doomed.grows {new : Nat} {events : List Event} (h : σ.Doomed i)
    (hgrows : Grows σ σ' new events) : σ'.Doomed i := by
  refine ⟨by rw [hgrows.length]; exact Nat.lt_add_right new h.1, fun process' hget => ?_⟩
  obtain ⟨process, flags, hold, heq⟩ := hgrows.signals i process' h.1 hget
  rw [heq]
  exact (h.2 process hold).or_left flags

/-- A process is doomed when `sys_kill` for it returns zero. -/
theorem doomed_sysKill {signal : SignalFlags} (h : Inv σ) (hlive : σ.Live i process)
    (hresult : (σ.sysKill process.pid signal).2 = 0) (hne : signal ≠ 0) :
    (σ.sysKill process.pid signal).1.Doomed i := by
  have hpid : σ.pid2process process.pid = some i :=
    h.pid2process_eq_some.mpr ⟨process, hlive.1, hlive.2, rfl⟩
  simp only [sysKill, hpid] at hresult ⊢
  cases hflag : SignalFlags.fromBits signal with
  | none => simp [hflag] at hresult
  | some flag =>
    rw [SignalFlags.fromBits] at hflag
    split at hflag
    · next hvalid =>
      cases hflag
      refine ⟨by rw [length_processes_update]; exact lt_length_of_live hlive, ?_⟩
      intro process' hget
      rw [get_update, if_pos rfl] at hget
      obtain ⟨old, -, rfl⟩ := map_eq_some_iff.mp hget
      simp only
      rw [BitVec.or_comm]
      exact (SignalFlags.fatal_of_valid hvalid hne).or_left _
    · cases hflag

end ProcessTree

end RCore.Task
