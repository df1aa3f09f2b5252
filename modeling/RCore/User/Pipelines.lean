import Mathlib.Data.List.Nodup
import RCore.User.Processes

/-!
# Descriptors in a pipeline

Whatever the interleaving, a child that gets to `exec` has its standard input and output
on the right files and nothing else open, and the shell ends up with what it had.  Each
process is followed on its own, with the rules for its calls; that all processes keep to
them is then an invariant of the system.
-/

namespace RCore.User

open RCore.Lib.Calls RCore.Lib.Calls.Prog RCore.Fs RCore.Fs.FdTable Function List Option

variable {path line : List Char} {old forked pid target n : Nat} {file : File} {files : List File}

/-! ## What the descriptors of a child should be -/

/-- The file at descriptor 0 of child `i`. -/
def childInput (std : StdFiles) (pipes : List Nat) (i : Nat) (args : ProcessArguments) :
    Option File :=
  if i = 0 then
    some (if args.input.isEmpty then std.input else .inode (cString args.input) OpenFlags.rdonly)
  else pipes[i - 1]?.map File.pipeRead

/-- The file at descriptor 1 of child `i` of `len`. -/
def childOutput (std : StdFiles) (pipes : List Nat) (len i : Nat) (args : ProcessArguments) :
    Option File :=
  if i + 1 = len then
    some (if args.output.isEmpty then std.output
      else .inode (cString args.output) (OpenFlags.create ||| OpenFlags.wronly))
  else pipes[i]?.map File.pipeWrite

/-- Child `i` has its input, its output and the error file of the shell open, and nothing else. -/
def Connected (cmds : List ProcessArguments) (std : StdFiles) (pipes : List Nat) (i : Nat)
    (t : FdTable File) : Prop :=
  ∃ args input output, cmds[i]? = some args ∧ childInput std pipes i args = some input ∧
    childOutput std pipes cmds.length i args = some output ∧ Opens t [input, output, std.error]

/-! ## Rules for the calls -/

/-- A process is the shell, after some forks, or one of its children. -/
inductive Role where
  | shell (forked : Nat)
  | child (i : Nat)

/-- What matters of a process: the pipes that the shell made for it, its role and its
descriptors. -/
structure Local where
  pipes : List Nat
  role : Role
  fdTable : FdTable File

/-- The shell has forked all children and is left with its own files. -/
def Local.Finished (cmds : List ProcessArguments) (std : StdFiles) (s : Local) : Prop :=
  s.role = .shell cmds.length ∧ s.pipes.length + 1 = cmds.length ∧ Opens s.fdTable std.toList

def callAllowed (cmds : List ProcessArguments) (std : StdFiles) (c : Syscall) (s : Local) : Prop :=
  match c with
  | .pipe => s.role = .shell 0
  | .fork => ∃ forked, s.role = .shell forked
  | .exec _ _ => ∃ i, s.role = .child i ∧ Connected cmds std s.pipes i s.fdTable
  | .waitpid _ => s.Finished cmds std
  | .panic reason => reason ≠ .dupAssertion
  | _ => True

def callOutcome (c : Syscall) (s : Local) (answer : Answer c) (s' : Local) : Prop :=
  match c, answer with
  | .openFile path flags, answer => ∃ inode, (inode = none ∨ inode = some (.inode (cString path) flags)) ∧
      answer = (s.fdTable.sysOpen inode).1 ∧ s' = { s with fdTable := (s.fdTable.sysOpen inode).2 }
  | .close fd, answer =>
      answer = (s.fdTable.sysClose fd).1 ∧ s' = { s with fdTable := (s.fdTable.sysClose fd).2 }
  | .pipe, answer => ∃ pipe, answer = (s.fdTable.sysPipe (.pipeRead pipe) (.pipeWrite pipe)).1 ∧
      s' = { s with pipes := s.pipes ++ [pipe],
                    fdTable := (s.fdTable.sysPipe (.pipeRead pipe) (.pipeWrite pipe)).2 }
  | .dup fd, answer =>
      answer = (s.fdTable.sysDup fd).1 ∧ s' = { s with fdTable := (s.fdTable.sysDup fd).2 }
  | .fork, answer => ∃ forked, s.role = .shell forked ∧
      ((answer = (0 : Int) ∧ s' = { s with role := .child forked }) ∨
        (answer ≠ (0 : Int) ∧ s' = { s with role := .shell (forked + 1) }))
  | .exec _ _, answer => answer = (-1 : Int) ∧ s' = s
  | .waitpid _, _ => s' = s
  | .panic _, _ => False

def callRules (cmds : List ProcessArguments) (std : StdFiles) : Rules Syscall Answer Local :=
  ⟨callAllowed cmds std, callOutcome⟩

/-! ## Single calls -/

section Calls

variable {cmds : List ProcessArguments} {std : StdFiles} {s : Local} {α : Type}

variable {post : Int → Local → Prop}

theorem wp_openFile {flags fd : Nat} (hlowest : IsLowest s.fdTable.file fd)
    (hopened : ∀ t : FdTable File,
      t.file = update s.fdTable.file fd (some (.inode (cString path) flags)) →
      post fd { s with fdTable := t }) (hfailed : post (-1) s) :
    (openFile path flags).wp (callRules cmds std) s post := by
  refine wp_call trivial ?_
  rintro answer s' ⟨inode, rfl | rfl, rfl, rfl⟩
  · exact hfailed
  · obtain ⟨hfd, hfile⟩ := sysOpen_spec hlowest (.inode (cString path) flags)
    rw [hfd]
    exact hopened _ hfile

theorem wp_close {fd : Nat}
    (hclosed : ∀ answer (t : FdTable File), t.file = update s.fdTable.file fd none →
      post answer { s with fdTable := t }) : (close fd).wp (callRules cmds std) s post := by
  refine wp_call trivial ?_
  rintro answer s' ⟨rfl, rfl⟩
  exact hclosed _ _ (file_sysClose _ _)

theorem wp_dup {fd : Nat} (hold : s.fdTable.file old = some file)
    (hlowest : IsLowest s.fdTable.file fd)
    (hdup : ∀ t : FdTable File, t.file = update s.fdTable.file fd (some file) →
      post fd { s with fdTable := t }) : (dup old).wp (callRules cmds std) s post := by
  refine wp_call trivial ?_
  rintro answer s' ⟨rfl, rfl⟩
  obtain ⟨hfd, hfile⟩ := sysDup_spec hold hlowest
  rw [hfd]
  exact hdup _ hfile

theorem wp_pipe {post : Nat × Nat → Local → Prop} {files : List File} (hrole : s.role = .shell 0)
    (hopens : s.fdTable.Opens files)
    (hpipe : ∀ pipe (t : FdTable File), t.Opens (files ++ [.pipeRead pipe, .pipeWrite pipe]) →
      post (files.length, files.length + 1) { s with pipes := s.pipes ++ [pipe], fdTable := t }) :
    User.pipe.wp (callRules cmds std) s post := by
  refine wp_call hrole ?_
  rintro answer s' ⟨pipe, rfl, rfl⟩
  have hread : IsLowest s.fdTable.file files.length := by
    rw [hopens]
    exact isLowest_listed files
  have hupdated : update s.fdTable.file files.length (some (.pipeRead pipe)) =
      listed (files ++ [.pipeRead pipe]) := by
    rw [hopens, update_listed_length]
  have hwrite : IsLowest (update s.fdTable.file files.length (some (.pipeRead pipe)))
      (files.length + 1) := by
    rw [hupdated]
    simpa using isLowest_listed (files ++ [File.pipeRead pipe])
  obtain ⟨hfds, hfile⟩ :
      (s.fdTable.sysPipe (.pipeRead pipe) (.pipeWrite pipe)).1 = _ ∧ _ := sysPipe_spec hread hwrite
  rw [hfds]
  refine hpipe pipe _ ?_
  have hlast := update_listed_length (files ++ [File.pipeRead pipe]) (.pipeWrite pipe)
  rw [length_append, length_singleton, append_assoc] at hlast
  rw [Opens, hfile, hupdated, hlast]
  rfl

/-- Both the child and the shell go on after a `fork`. -/
theorem wp_fork (hrole : s.role = .shell forked)
    (hchild : post 0 { s with role := .child forked })
    (hparent : ∀ pid, pid ≠ 0 → post pid { s with role := .shell (forked + 1) }) :
    fork.wp (callRules cmds std) s post := by
  refine wp_call ⟨forked, hrole⟩ ?_
  rintro answer s' ⟨forked', hforked, hfork⟩
  obtain rfl : forked = forked' := Role.shell.inj (hrole.symm.trans hforked)
  rcases hfork with ⟨rfl, rfl⟩ | ⟨hpid, rfl⟩
  · exact hchild
  · exact hparent answer hpid

theorem wp_exec {args : List (List Char)} {i : Nat} (hrole : s.role = .child i)
    (hconnected : Connected cmds std s.pipes i s.fdTable) (hfailed : post (-1) s) :
    (exec path args).wp (callRules cmds std) s post := by
  refine wp_call ⟨i, hrole, hconnected⟩ ?_
  rintro answer s' ⟨rfl, rfl⟩
  exact hfailed

theorem wp_waitpid (hfinished : s.Finished cmds std) (hpost : ∀ exitPid, post exitPid s) :
    (waitpid pid).wp (callRules cmds std) s post := by
  refine wp_call hfinished ?_
  rintro answer s' rfl
  exact hpost answer

theorem wp_panic {post : α → Local → Prop} {reason : Panic} (hreason : reason ≠ .dupAssertion) :
    (panic reason : UserProg α).wp (callRules cmds std) s post :=
  wp_call hreason fun _ _ hfalse => absurd hfalse id

/-! ## Connecting a descriptor -/

theorem wp_assertDup {post : Unit → Local → Prop} (hold : s.fdTable.file old = some file)
    (hlowest : IsLowest s.fdTable.file target) (hdup : ∀ t : FdTable File, t.file =
      update s.fdTable.file target (some file) → post () { s with fdTable := t }) :
    (assertDup old target).wp (callRules cmds std) s post := by
  refine wp_bind (wp_dup hold hlowest fun t hfile => ?_)
  rw [if_pos rfl]
  exact wp_pure (hdup t hfile)

theorem wp_connect {post : Unit → Local → Prop} (hopens : s.fdTable.Opens files)
    (htarget : target < files.length) (hne : old ≠ target) (hold : files[old]? = some file)
    (hpost : ∀ t : FdTable File, t.Opens (files.set target file) →
      post () { s with fdTable := t }) :
    (close target).wp (callRules cmds std) s fun _ s' =>
      (assertDup old target).wp (callRules cmds std) s' post := by
  refine wp_close fun _ t hclosed => ?_
  rw [hopens] at hclosed
  have hfile : t.file old = some file := by
    rw [hclosed, update_of_ne hne]
    exact hold
  have hlowest : IsLowest t.file target := by
    rw [hclosed]
    exact isLowest_update_listed htarget
  refine wp_assertDup hfile hlowest fun t' hdup => hpost t' ?_
  simp only at hdup
  rw [Opens, hdup, hclosed, update_idem, update_listed_of_lt htarget]

/-- A redirection puts the file at its target, or leaves everything as it was if there is none. -/
theorem wp_redirect {post : Bool → Local → Prop} {flags : Nat} (hopens : s.fdTable.Opens files)
    (htarget : target < files.length)
    (hopened : ∀ t : FdTable File,
      t.Opens (if path.isEmpty then files else files.set target (.inode (cString path) flags)) →
      post true { s with fdTable := t }) (hfailed : post false s) :
    (redirect path flags target).wp (callRules cmds std) s post := by
  rw [redirect]
  split
  case isTrue hempty =>
    refine wp_pure (hopened s.fdTable ?_)
    rwa [if_pos hempty]
  case isFalse hpath =>
    have hlowest : IsLowest s.fdTable.file files.length := by
      rw [hopens]
      exact isLowest_listed files
    refine wp_bind (wp_openFile hlowest (fun t hfile => ?_) ?_)
    · have hfiles : t.Opens (files ++ [.inode (cString path) flags]) := by
        rw [Opens, hfile, hopens, update_listed_length]
      have hlast : (files ++ [File.inode (cString path) flags])[files.length]? =
          some (.inode (cString path) flags) := by simp
      have hbelow : target < (files ++ [File.inode (cString path) flags]).length := by
        rw [length_append]
        omega
      rw [if_neg (by omega), Int.toNat_natCast]
      refine wp_bind (wp_mono (wp_connect hfiles hbelow (Nat.ne_of_gt htarget) hlast
        fun t₁ hfiles₁ => ?_) fun _ _ h => wp_bind h)
      refine wp_bind (wp_close fun _ t₂ hclosed => wp_pure (hopened t₂ ?_))
      have hlength := update_listed_last (files.set target (.inode (cString path) flags))
        (.inode (cString path) flags)
      rw [length_set] at hlength
      simp only at hclosed
      rw [if_neg hpath, Opens, hclosed, hfiles₁, set_append_left _ _ htarget, hlength]
    · rw [if_pos rfl]
      exact wp_pure hfailed

/-! ## The pipes -/

/-- The files of the pipes, in the order of their descriptors. -/
def pipeEnds (pipes : List Nat) : List File :=
  pipes.flatMap fun pipe => [.pipeRead pipe, .pipeWrite pipe]

/-- The descriptors of `n` pipes from `fd` on. -/
def pipeFds : Nat → Nat → List (Nat × Nat)
  | _, 0 => []
  | fd, n + 1 => (fd, fd + 1) :: pipeFds (fd + 2) n

theorem length_pipeEnds (pipes : List Nat) : (pipeEnds pipes).length = 2 * pipes.length := by
  induction pipes with
  | nil => rfl
  | cons pipe pipes ih =>
    simp only [pipeEnds, flatMap_cons, length_append, length_cons] at ih ⊢
    simp only [length_nil]
    omega

theorem getElem?_pipeEnds (pipes : List Nat) (j : Nat) :
    (pipeEnds pipes)[2 * j]? = pipes[j]?.map File.pipeRead ∧
      (pipeEnds pipes)[2 * j + 1]? = pipes[j]?.map File.pipeWrite := by
  induction pipes generalizing j with
  | nil => exact ⟨rfl, rfl⟩
  | cons pipe pipes ih =>
    cases j with
    | zero => exact ⟨rfl, rfl⟩
    | succ j => exact ih j

theorem getElem?_pipeFds {j : Nat} (fd : Nat) (hj : j < n) :
    (pipeFds fd n)[j]? = some (fd + 2 * j, fd + 2 * j + 1) := by
  induction n generalizing fd j with
  | zero => omega
  | succ n ih =>
    cases j with
    | zero => rfl
    | succ j =>
      rw [pipeFds, getElem?_cons_succ, ih (fd + 2) (by omega)]
      congr 2 <;> omega

theorem wp_makePipes {n : Nat} {files : List File} (hrole : s.role = .shell 0)
    (hopens : s.fdTable.Opens files) :
    (makePipes n).wp (callRules cmds std) s fun pipesFd s' =>
      pipesFd = pipeFds files.length n ∧ ∃ made, made.length = n ∧ s'.pipes = s.pipes ++ made ∧
        s'.role = .shell 0 ∧ s'.fdTable.Opens (files ++ pipeEnds made) := by
  induction n generalizing s files with
  | zero => exact wp_pure ⟨rfl, [], rfl, by simp, hrole, by simpa [pipeEnds] using hopens⟩
  | succ n ih =>
    refine wp_bind (wp_pipe hrole hopens fun pipe t ht => ?_)
    refine wp_seq (ih hrole ht) ?_
    rintro pipesFd s' ⟨rfl, made, hlength, hpipes, hrole', hopens'⟩
    refine wp_pure ⟨?_, pipe :: made, by simp [hlength], ?_, hrole', ?_⟩
    · rw [pipeFds, length_append]
      rfl
    · rw [hpipes]
      simp
    · simpa [pipeEnds] using hopens'

theorem wp_closePipes {post : Unit → Local → Prop} {fd : Nat}
    (hclosed : ∀ t : FdTable File, (∀ other, t.file other = if fd ≤ other ∧ other < fd + 2 * n
      then none else s.fdTable.file other) → post () { s with fdTable := t }) :
    (closePipes (pipeFds fd n)).wp (callRules cmds std) s post := by
  induction n generalizing s fd with
  | zero => exact wp_pure (hclosed s.fdTable fun other => by rw [if_neg (by omega)])
  | succ n ih =>
    refine wp_bind (wp_close fun _ t₁ h₁ => wp_bind (wp_close fun _ t₂ h₂ => ih fun t h => ?_))
    refine hclosed t fun other => ?_
    simp only at h₂
    rw [h other]
    simp only [h₂, h₁, update_apply]
    split_ifs <;> first | rfl | omega

theorem opens_of_closed {t t' : FdTable File} {pipes : List Nat}
    (hopens : t.Opens (files ++ pipeEnds pipes))
    (hclosed : ∀ other,
      t'.file other = if files.length ≤ other ∧ other < files.length + 2 * pipes.length then none
      else t.file other) : t'.Opens files := by
  funext fd
  rw [hclosed fd, hopens]
  by_cases hfd : fd < files.length
  · rw [if_neg (by omega), listed, listed, getElem?_append_left hfd]
  · rw [listed_of_length_le (by omega : files.length ≤ fd)]
    split
    · rfl
    · refine listed_of_length_le ?_
      rw [length_append, length_pipeEnds]
      omega

/-! ## A child -/

section

variable {post : Unit → Local → Prop} {pipes : List Nat} {i : Nat} {input output error : File}
  (hopens : s.fdTable.Opens (input :: output :: error :: pipeEnds pipes)) (hi : i ≤ pipes.length)
include hopens hi

theorem wp_receiveInput
    (hpost : ∀ (t : FdTable File) file,
      (if i = 0 then some input else pipes[i - 1]?.map File.pipeRead) = some file →
      t.Opens (file :: output :: error :: pipeEnds pipes) → post () { s with fdTable := t }) :
    (receiveInput (pipeFds 3 pipes.length) i).wp (callRules cmds std) s post := by
  rw [receiveInput]
  split
  case isTrue hpos =>
    have hlt : i - 1 < pipes.length := by omega
    have hread : (input :: output :: error :: pipeEnds pipes)[3 + 2 * (i - 1)]? =
        some (.pipeRead pipes[i - 1]) := by
      have hends := (getElem?_pipeEnds pipes (i - 1)).1
      rw [getElem?_eq_getElem hlt] at hends
      rw [Nat.add_comm]
      exact hends
    simp only [getElem?_pipeFds 3 hlt]
    refine wp_bind (wp_connect hopens (by simp) (by omega) hread fun t ht => hpost t _ ?_ ht)
    rw [if_neg (Nat.ne_of_gt hpos), getElem?_eq_getElem hlt]
    rfl
  case isFalse hzero =>
    exact wp_pure (hpost s.fdTable input (if_pos (Nat.eq_zero_of_not_pos hzero)) hopens)

theorem wp_sendOutput
    (hpost : ∀ (t : FdTable File) file,
      (if i = pipes.length then some output else pipes[i]?.map File.pipeWrite) = some file →
      t.Opens (input :: file :: error :: pipeEnds pipes) → post () { s with fdTable := t }) :
    (sendOutput (pipeFds 3 pipes.length) (pipes.length + 1) i).wp (callRules cmds std) s post := by
  rw [sendOutput, Nat.add_sub_cancel]
  split
  case isTrue hlt =>
    have hwrite : (input :: output :: error :: pipeEnds pipes)[3 + 2 * i + 1]? =
        some (.pipeWrite pipes[i]) := by
      have hends := (getElem?_pipeEnds pipes i).2
      rw [getElem?_eq_getElem hlt] at hends
      rw [Nat.add_assoc, Nat.add_comm]
      exact hends
    simp only [getElem?_pipeFds 3 hlt]
    refine wp_bind (wp_connect hopens (by simp) (by omega) hwrite fun t ht => hpost t _ ?_ ht)
    rw [if_neg (Nat.ne_of_lt hlt), getElem?_eq_getElem hlt]
    rfl
  case isFalse hlast =>
    exact wp_pure (hpost s.fdTable output (if_pos (by omega)) hopens)

end

theorem wp_runChild {i : Nat} {args : ProcessArguments} (hargs : cmds[i]? = some args)
    (hrole : s.role = .child i)
    (hpipes : s.pipes.length + 1 = cmds.length)
    (hopens : s.fdTable.Opens (std.toList ++ pipeEnds s.pipes)) :
    (runChild (pipeFds 3 s.pipes.length) cmds.length i args).wp (callRules cmds std) s
      fun _ _ => True := by
  have hi : i ≤ s.pipes.length := by
    have hlt := (List.getElem?_eq_some_iff.mp hargs).1
    omega
  refine wp_bind (wp_redirect hopens (by simp [StdFiles.toList]) (fun t₁ h₁ => ?_) (wp_pure trivial))
  refine wp_bind (wp_redirect h₁ (by split <;> simp [StdFiles.toList]) (fun t₂ h₂ => ?_)
    (wp_pure trivial))
  -- the files after both redirections
  have hfiles : t₂.Opens
      ((if args.input.isEmpty then std.input else .inode (cString args.input) OpenFlags.rdonly) ::
        (if args.output.isEmpty then std.output
          else .inode (cString args.output) (OpenFlags.create ||| OpenFlags.wronly)) ::
        std.error :: pipeEnds s.pipes) := by
    split at h₂ <;> split at h₂ <;> simpa [*, StdFiles.toList] using h₂
  refine wp_bind (wp_receiveInput hfiles hi fun t₃ input hinput h₃ => ?_)
  rw [← hpipes]
  refine wp_bind (wp_sendOutput h₃ hi fun t₄ output houtput h₄ => ?_)
  refine wp_bind (wp_closePipes fun t₅ hclosed => ?_)
  have h₅ : t₅.Opens [input, output, std.error] := opens_of_closed h₄ hclosed
  cases args.argsCopy with
  | nil => exact wp_panic (by decide)
  | cons path rest =>
    refine wp_bind (wp_exec hrole ⟨args, input, output, hargs, hinput, ?_, h₅⟩ (wp_pure trivial))
    rw [childOutput, ← hpipes]
    simpa using houtput

theorem wp_forkChildren {rest : List (ProcessArguments × Nat)} {children : List Int}
    (hrest : rest = (cmds.drop forked).zipIdx forked) (hforked : forked ≤ cmds.length)
    (hrole : s.role = .shell forked) (hpipes : s.pipes.length + 1 = cmds.length)
    (hopens : s.fdTable.Opens (std.toList ++ pipeEnds s.pipes)) :
    (forkChildren (pipeFds 3 s.pipes.length) cmds.length rest children).wp (callRules cmds std) s
      fun result s' => result.isRight → s' = { s with role := .shell cmds.length } := by
  induction rest generalizing s forked children with
  | nil =>
    have hall : forked = cmds.length := by
      have hlength := congrArg List.length hrest
      simp only [length_nil, length_zipIdx, length_drop] at hlength
      omega
    refine wp_pure fun _ => ?_
    rw [← hall, ← hrole]
  | cons first rest ih =>
    obtain ⟨args, i⟩ := first
    have hlt : forked < cmds.length := by
      have hlength := congrArg List.length hrest
      simp only [length_cons, length_zipIdx, length_drop] at hlength
      omega
    rw [drop_eq_getElem_cons hlt, zipIdx_cons, List.cons.injEq, Prod.mk.injEq] at hrest
    obtain ⟨⟨hargs, rfl⟩, hrest⟩ := hrest
    refine wp_bind (wp_fork hrole ?_ fun pid hpid => ?_)
    · rw [if_pos rfl]
      have hchild : cmds[i]? = some args := by rw [getElem?_eq_getElem hlt, hargs]
      exact wp_seq (wp_runChild (s := { s with role := .child i }) hchild rfl hpipes hopens)
        fun _ _ _ => wp_pure (by simp)
    · rw [if_neg hpid]
      exact ih (s := { s with role := .shell (i + 1) }) hrest hlt rfl hpipes hopens

theorem wp_waitChildren {children : List Int} (hfinished : s.Finished cmds std) :
    (waitChildren children).wp (callRules cmds std) s fun _ s' => s' = s := by
  induction children with
  | nil => exact wp_pure rfl
  | cons pid children ih =>
    refine wp_bind (wp_waitpid hfinished fun exitPid => ?_)
    split
    · exact ih
    · exact wp_panic (by decide)

theorem wp_runPipeline (hcmds : cmds ≠ []) (hrole : s.role = .shell 0) (hpipes : s.pipes = [])
    (hopens : s.fdTable.Opens std.toList) :
    (runPipeline cmds).wp (callRules cmds std) s fun result s' =>
      result = none → s'.Finished cmds std := by
  have hpos := length_pos_iff.mpr hcmds
  refine wp_seq (wp_makePipes hrole hopens) ?_
  rintro pipesFd s₁ ⟨rfl, made, hmade, hpipes₁, hrole₁, hopens₁⟩
  rw [hpipes, nil_append] at hpipes₁
  subst hpipes₁
  have hlength : s₁.pipes.length + 1 = cmds.length := by omega
  rw [← hmade]
  refine wp_seq (wp_forkChildren rfl (Nat.zero_le _) hrole₁ hlength hopens₁) ?_
  rintro (code | children) s₂ hs₂
  · exact wp_pure (by simp)
  · obtain rfl := hs₂ rfl
    refine wp_bind (wp_closePipes fun t hclosed => ?_)
    have hfinished : Local.Finished cmds std ⟨s₁.pipes, .shell cmds.length, t⟩ :=
      ⟨rfl, hlength, opens_of_closed hopens₁ hclosed⟩
    refine wp_seq (wp_waitChildren hfinished) ?_
    rintro _ _ rfl
    exact wp_pure fun _ => hfinished

end Calls

/-! ## The system -/

/-- The shell runs the line as a pipeline of these commands. -/
structure Accepts (line : List Char) (cmds : List ProcessArguments) : Prop where
  nonempty : line ≠ []
  parsed : (line.splitOn '|').mapM ProcessArguments.new = some cmds
  valid : isValid cmds = true

variable {cmds : List ProcessArguments} {std : StdFiles}

theorem Accepts.ne_nil (h : Accepts line cmds) : cmds ≠ [] := by
  rintro rfl
  have hparsed := h.parsed
  cases hsplit : line.splitOn '|' with
  | nil => exact splitOn_ne_nil _ _ hsplit
  | cons command commands =>
    rw [hsplit, mapM_cons] at hparsed
    simp [bind_eq_some_iff] at hparsed

theorem wp_runLine {t : FdTable File} (h : Accepts line cmds) (hopens : t.Opens std.toList) :
    (runLine line).wp (callRules cmds std) ⟨[], .shell 0, t⟩ fun result s' =>
      result = none → s'.Finished cmds std := by
  have hline : runLine line = runPipeline cmds := by
    rw [runLine, if_neg (by simpa using h.nonempty), h.parsed]
    exact if_pos h.valid
  rw [hline]
  exact wp_runPipeline h.ne_nil rfl rfl hopens

/-- The process keeps to the rules, in its role and with these pipes. -/
def Process.Ok (cmds : List ProcessArguments) (std : StdFiles) (pipes : List Nat) (role : Role)
    (p : Process) : Prop :=
  match p.image with
  | .shell prog => prog.wp (callRules cmds std) ⟨pipes, role, p.fdTable⟩ fun result s' =>
      result = none → s'.Finished cmds std
  | .program _ _ => ∃ i, role = .child i ∧ Connected cmds std pipes i p.fdTable
  | .zombie => p.fdTable = []
  | .reaped => p.fdTable = []

def System.role (sys : System) (i : Nat) : Role :=
  if i = 0 then .shell (sys.processes.length - 1) else .child (i - 1)

theorem System.role_put (sys : System) (i j : Nat) (p : Process) :
    (sys.put i p).role j = sys.role j := by
  simp only [System.role, System.put, length_set]

/-- All processes keep to the rules, and the pipes are new. -/
structure PipelineInv (cmds : List ProcessArguments) (std : StdFiles) (sys : System) : Prop where
  processes : ∀ i (p : Process), sys.processes[i]? = some p → p.Ok cmds std sys.pipes (sys.role i)
  pos : 0 < sys.processes.length
  nodup : sys.pipes.Nodup
  pipes_lt : ∀ pipe ∈ sys.pipes, pipe < sys.nextPipe
  std_pipes : ∀ pipe ∈ sys.pipes, ∀ file ∈ std.toList, file.NotOf pipe
  std_next : ∀ file ∈ std.toList, ∀ pipe, sys.nextPipe ≤ pipe → file.NotOf pipe

namespace PipelineInv

variable {sys sys' : System} {i : Nat} {p p' : Process}

theorem start {nextPipe : Nat} {fdTable : FdTable File} (haccepts : Accepts line cmds)
    (hopens : fdTable.Opens std.toList)
    (hnext : ∀ file ∈ std.toList, ∀ pipe, nextPipe ≤ pipe → file.NotOf pipe) :
    PipelineInv cmds std ⟨[⟨pid, fdTable, .shell (runLine line)⟩], [], nextPipe⟩ where
  processes i p hp := by
    obtain ⟨rfl, rfl⟩ : i = 0 ∧ _ = p := by
      cases i with
      | zero => exact ⟨rfl, Option.some.inj hp⟩
      | succ i => exact absurd hp (by simp)
    exact wp_runLine haccepts hopens
  pos := Nat.one_pos
  nodup := nodup_nil
  pipes_lt := by simp
  std_pipes := by simp
  std_next := hnext

theorem put (h : PipelineInv cmds std sys) (hok : p'.Ok cmds std sys.pipes (sys.role i)) :
    PipelineInv cmds std (sys.put i p') where
  processes j q hq := by
    rw [System.role_put]
    simp only [System.put, getElem?_set] at hq ⊢
    split at hq
    case isTrue heq =>
      obtain ⟨-, hq⟩ := ite_none_right_eq_some.mp hq
      rw [← heq, ← Option.some.inj hq]
      exact hok
    case isFalse => exact h.processes j q hq
  pos := by
    rw [System.put, length_set]
    exact h.pos
  nodup := h.nodup
  pipes_lt := h.pipes_lt
  std_pipes := h.std_pipes
  std_next := h.std_next

end PipelineInv

theorem System.eq_zero_of_role {sys : System} {i : Nat} (h : sys.role i = .shell forked) :
    i = 0 ∧ forked = sys.processes.length - 1 := by
  rw [System.role] at h
  split at h
  case isTrue hzero => exact ⟨hzero, (Role.shell.inj h).symm⟩
  case isFalse => exact absurd h Role.noConfusion

namespace PipelineInv

variable {sys sys' : System} {i : Nat} {p p' : Process}

/-- A pipe is made before there are children. -/
theorem pipe (h : PipelineInv cmds std sys) (hrole : sys.role i = .shell 0)
    (hok : p'.Ok cmds std (sys.pipes ++ [sys.nextPipe]) (.shell 0)) :
    PipelineInv cmds std { sys.put i p' with
      pipes := sys.pipes ++ [sys.nextPipe], nextPipe := sys.nextPipe + 1 } := by
  obtain ⟨rfl, hlength⟩ := System.eq_zero_of_role hrole
  have hpos := h.pos
  obtain ⟨q, hq⟩ : ∃ q, sys.processes = [q] := length_eq_one_iff.mp (by omega)
  refine ⟨fun j q' hq' => ?_, ?_, ?_, ?_, ?_, ?_⟩
  · simp only [System.put, hq, set_cons_zero] at hq'
    cases j with
    | zero =>
      obtain rfl : p' = q' := Option.some.inj hq'
      simpa [System.role, System.put, hq] using hok
    | succ j => exact absurd hq' (by simp)
  · simp only [System.put, length_set]
    exact hpos
  · refine nodup_append.mpr ⟨h.nodup, nodup_singleton _, fun a ha b hb heq => ?_⟩
    have := h.pipes_lt a ha
    rw [mem_singleton.mp hb] at heq
    omega
  · intro pipe hpipe
    rcases mem_append.mp hpipe with hpipe | hpipe
    · exact Nat.lt_succ_of_lt (h.pipes_lt pipe hpipe)
    · rw [mem_singleton.mp hpipe]
      exact Nat.lt_succ_self _
  · intro pipe hpipe file hfile
    rcases mem_append.mp hpipe with hpipe | hpipe
    · exact h.std_pipes pipe hpipe file hfile
    · rw [mem_singleton.mp hpipe]
      exact h.std_next file hfile _ (Nat.le_refl _)
  · exact fun file hfile pipe hpipe => h.std_next file hfile pipe (Nat.le_of_succ_le hpipe)

theorem fork (h : PipelineInv cmds std sys) (hrole : sys.role i = .shell forked) {child : Process}
    (hparent : p'.Ok cmds std sys.pipes (.shell (forked + 1)))
    (hchild : child.Ok cmds std sys.pipes (.child forked)) :
    PipelineInv cmds std { sys with processes := sys.processes.set i p' ++ [child] } := by
  obtain ⟨rfl, rfl⟩ := System.eq_zero_of_role hrole
  have hpos := h.pos
  refine ⟨fun j q hq => ?_, by simp, h.nodup, h.pipes_lt, h.std_pipes, h.std_next⟩
  simp only [getElem?_append, length_set, getElem?_set] at hq
  cases j with
  | zero =>
    rw [if_pos hpos, if_pos rfl, if_pos hpos] at hq
    rw [← Option.some.inj hq]
    rw [Nat.sub_add_cancel hpos] at hparent
    simpa [System.role] using hparent
  | succ j =>
    split at hq
    case isTrue hlt =>
      rw [if_neg (by omega)] at hq
      exact h.processes (j + 1) q hq
    case isFalse hge =>
      rw [getElem?_singleton] at hq
      obtain ⟨hlast, hq⟩ := ite_none_right_eq_some.mp hq
      rw [← Option.some.inj hq]
      have hj : sys.processes.length - 1 = j := by omega
      rw [hj] at hchild
      exact hchild

theorem reap (h : PipelineInv cmds std sys) (hp : sys.processes[i]? = some p)
    (hzombie : p.isZombie = true) :
    Process.Ok cmds std sys.pipes (sys.role i) { p with image := .reaped } := by
  obtain ⟨self, t, image⟩ := p
  cases image with
  | zombie =>
    have hempty : t = [] := h.processes i _ hp
    exact hempty
  | shell prog => exact absurd hzombie Bool.false_ne_true
  | program path args => exact absurd hzombie Bool.false_ne_true
  | reaped => exact absurd hzombie Bool.false_ne_true

/-- Whatever a process does next, all processes keep to the rules. -/
theorem act (h : PipelineInv cmds std sys) {succeeds : Bool}
    (hact : sys.act i succeeds pid = some sys') : PipelineInv cmds std sys' := by
  simp only [System.act, bind_eq_bind, bind_eq_some_iff] at hact
  obtain ⟨⟨self, t, image⟩, hp, hact⟩ := hact
  have hok := h.processes i _ hp
  cases image with
  | zombie => simp at hact
  | reaped => simp at hact
  | program path args =>
    cases hact
    exact h.put rfl
  | shell prog =>
    cases prog with
    | pure result =>
      cases result with
      | none => simp at hact
      | some code =>
        cases hact
        exact h.put rfl
    | call c next =>
      obtain ⟨hallowed, hnext⟩ := hok
      cases c with
      | openFile path flags =>
        cases hact
        exact h.put (hnext _ _ ⟨_, by cases succeeds <;> simp, rfl, rfl⟩)
      | close fd =>
        cases hact
        exact h.put (hnext _ _ ⟨rfl, rfl⟩)
      | pipe =>
        cases hact
        have hrole : sys.role i = .shell 0 := hallowed
        refine h.pipe hrole ?_
        rw [← hrole]
        exact hnext _ _ ⟨sys.nextPipe, rfl, rfl⟩
      | dup fd =>
        cases hact
        exact h.put (hnext _ _ ⟨rfl, rfl⟩)
      | fork =>
        obtain ⟨forked, hrole⟩ := hallowed
        obtain ⟨⟨hpid, -⟩, hact⟩ := ite_none_right_eq_some.mp hact
        cases hact
        refine h.fork hrole ?_ ?_
        · exact hnext _ _ ⟨forked, hrole, .inr ⟨Int.natCast_ne_zero.mpr (Nat.ne_of_gt hpid), rfl⟩⟩
        · rw [copy_eq]
          exact hnext _ _ ⟨forked, hrole, .inl ⟨rfl, rfl⟩⟩
      | exec path args =>
        simp only at hact
        split at hact
        · cases hact
          exact h.put hallowed
        · cases hact
          exact h.put (hnext _ _ ⟨rfl, rfl⟩)
      | waitpid child =>
        simp only at hact
        split at hact
        · cases hact
          exact h.put (hnext _ _ rfl)
        · simp only [bind_eq_some_iff, ite_none_right_eq_some] at hact
          obtain ⟨q, hq, hzombie, hact⟩ := hact
          cases hact
          refine (h.put (h.reap hq hzombie)).put ?_
          rw [System.role_put]
          exact hnext _ _ rfl
      | panic reason =>
        cases hact
        exact h.put rfl

end PipelineInv

theorem ShellReaches.inv {sys : System} (haccepts : Accepts line cmds)
    (hreach : ShellReaches line std sys) : PipelineInv cmds std sys := by
  induction hreach with
  | start hopens hnext => exact PipelineInv.start haccepts hopens hnext
  | act _ hact ih => exact ih.act hact
  | others _ hnext ih =>
    exact { ih with
      pipes_lt := fun pipe hpipe => Nat.lt_of_lt_of_le (ih.pipes_lt pipe hpipe) hnext
      std_next := fun file hfile pipe hpipe =>
        ih.std_next file hfile pipe (Nat.le_trans hnext hpipe) }

/-! ## The descriptors in every run -/

namespace Process

/-- An assertion about `dup` does not hold. -/
def FailsDup (p : Process) : Prop := ∃ next, p.image = .shell (.call (.panic .dupAssertion) next)

/-- The process calls `exec`, or it has just succeeded. -/
def AtExec (p : Process) : Prop :=
  (∃ path args next, p.image = .shell (.call (.exec path args) next)) ∨
    ∃ path args, p.image = .program path args

def Ended (p : Process) : Prop := p.image = .zombie ∨ p.image = .reaped

/-- The shell waits for its children, or it has done so. -/
def HasClosed (p : Process) : Prop :=
  (∃ pid next, p.image = .shell (.call (.waitpid pid) next)) ∨ p.image = .shell (.pure none)

variable {pipes : List Nat} {role : Role} {p : Process}

theorem Ok.not_failsDup (h : p.Ok cmds std pipes role) : ¬p.FailsDup := by
  rintro ⟨next, himage⟩
  rw [Ok, himage] at h
  exact h.1 rfl

theorem Ok.connected {i : Nat} (h : p.Ok cmds std pipes (.child i)) (hexec : p.AtExec) :
    Connected cmds std pipes i p.fdTable := by
  have hallowed : ∃ j, Role.child i = .child j ∧ Connected cmds std pipes j p.fdTable := by
    rcases hexec with ⟨path, args, next, himage⟩ | ⟨path, args, himage⟩
    · rw [Ok, himage] at h
      exact h.1
    · rw [Ok, himage] at h
      exact h
  obtain ⟨j, hj, hconnected⟩ := hallowed
  rwa [Role.child.inj hj]

theorem Ok.finished (h : p.Ok cmds std pipes role) (hclosed : p.HasClosed) :
    Local.Finished cmds std ⟨pipes, role, p.fdTable⟩ := by
  rcases hclosed with ⟨pid, next, himage⟩ | himage
  · rw [Ok, himage] at h
    exact h.1
  · rw [Ok, himage] at h
    exact h rfl

theorem Ok.fdTable_of_ended (h : p.Ok cmds std pipes role) (hended : p.Ended) : p.fdTable = [] := by
  rcases hended with himage | himage
  all_goals
    rw [Ok, himage] at h
    exact h

end Process

section WriteEnds

variable {pipes : List Nat} {i j fd pipe : Nat} {args : ProcessArguments} {t : FdTable File}

theorem childInput_ne_write (hstd : ∀ file ∈ std.toList, file.NotOf pipe) :
    childInput std pipes i args ≠ some (.pipeWrite pipe) := by
  intro hinput
  rw [childInput] at hinput
  split at hinput
  · split at hinput
    · exact (hstd std.input (by simp [StdFiles.toList])).2 (Option.some.inj hinput)
    · exact absurd (Option.some.inj hinput) File.noConfusion
  · obtain ⟨other, -, hother⟩ := map_eq_some_iff.mp hinput
    exact absurd hother File.noConfusion

theorem getElem?_of_childOutput {len : Nat} (hstd : ∀ file ∈ std.toList, file.NotOf pipe)
    (houtput : childOutput std pipes len i args = some (.pipeWrite pipe)) :
    pipes[i]? = some pipe := by
  rw [childOutput] at houtput
  split at houtput
  · split at houtput
    · exact absurd (Option.some.inj houtput) (hstd std.output (by simp [StdFiles.toList])).2
    · exact absurd (Option.some.inj houtput) File.noConfusion
  · obtain ⟨other, hother, heq⟩ := map_eq_some_iff.mp houtput
    rwa [← File.pipeWrite.inj heq]

theorem Connected.write_end (h : Connected cmds std pipes i t) (hnodup : pipes.Nodup)
    (hpipe : pipes[j]? = some pipe) (hstd : ∀ file ∈ std.toList, file.NotOf pipe)
    (hfile : t.file fd = some (.pipeWrite pipe)) : i = j ∧ fd = 1 := by
  obtain ⟨args, input, output, -, hinput, houtput, hopens⟩ := h
  rw [hopens] at hfile
  rcases fd with _ | _ | _ | fd
  · obtain rfl : input = _ := Option.some.inj hfile
    exact absurd hinput (childInput_ne_write hstd)
  · obtain rfl : output = _ := Option.some.inj hfile
    have hi := getElem?_of_childOutput hstd houtput
    have hlt := (List.getElem?_eq_some_iff.mp hi).1
    exact ⟨(List.getElem?_inj hlt hnodup).mp (hi.trans hpipe.symm), rfl⟩
  · exact absurd (Option.some.inj hfile) (hstd std.error (by simp [StdFiles.toList])).2
  · exact absurd hfile (by simp [listed])

end WriteEnds

/-- In every run on a line that is accepted, no assertion about `dup` fails; a child at `exec` is
connected to its neighbours and has nothing else open; and once the shell has closed its pipes
it has its own files open and nothing else.  When the children have executed their programs,
the write end of a pipe is held by the child in front of it only. -/
theorem pipeline_descriptors {line : List Char} {sys : System} (haccepts : Accepts line cmds)
    (hreach : ShellReaches line std sys) :
    (∀ p ∈ sys.processes, ¬p.FailsDup) ∧
      (∀ i p, sys.processes[i + 1]? = some p → p.AtExec →
        Connected cmds std sys.pipes i p.fdTable) ∧
      ∀ p, sys.processes[0]? = some p → p.HasClosed →
        p.fdTable.Opens std.toList ∧ sys.processes.length = cmds.length + 1 ∧
          sys.pipes.length + 1 = cmds.length ∧ sys.pipes.Nodup ∧
          ((∀ i q, sys.processes[i + 1]? = some q → q.AtExec ∨ q.Ended) →
            ∀ i q fd j pipe, sys.processes[i]? = some q → sys.pipes[j]? = some pipe →
              q.fdTable.file fd = some (.pipeWrite pipe) → i = j + 1 ∧ fd = 1) := by
  have hinv := hreach.inv haccepts
  refine ⟨fun p hp => ?_, fun i p hp hexec => ?_, fun p hp hclosed => ?_⟩
  · obtain ⟨i, hi⟩ := List.mem_iff_getElem?.mp hp
    exact (hinv.processes i p hi).not_failsDup
  · exact (hinv.processes (i + 1) p hp).connected hexec
  · obtain ⟨hrole, hpipes, hopens⟩ := (hinv.processes 0 p hp).finished hclosed
    have hpos := hinv.pos
    have hforked : sys.processes.length - 1 = cmds.length := (Role.shell.inj hrole)
    refine ⟨hopens, by omega, hpipes, hinv.nodup, fun hall i q fd j pipe hq hpipe hfile => ?_⟩
    have hstd := hinv.std_pipes pipe (List.mem_of_getElem? hpipe)
    cases i with
    | zero =>
      obtain rfl : p = q := Option.some.inj (hp.symm.trans hq)
      rw [hopens] at hfile
      have hmem : File.pipeWrite pipe ∈ std.toList := List.mem_of_getElem? hfile
      exact absurd rfl (hstd _ hmem).2
    | succ i =>
      have hok := hinv.processes (i + 1) q hq
      rcases hall i q hq with hexec | hended
      · obtain ⟨rfl, hfd⟩ := (hok.connected hexec).write_end hinv.nodup hpipe hstd hfile
        exact ⟨rfl, hfd⟩
      · rw [hok.fdTable_of_ended hended] at hfile
        exact absurd hfile (by simp [file])

/-- A run in which the processes act in the given order; every `open` succeeds and the new processes
get the identifiers from `pid` on. -/
def System.actAll (sys : System) (pid : Nat) : List Nat → Option System
  | [] => some sys
  | i :: order => do
      let sys' ← sys.act i true pid
      sys'.actAll (pid + 1) order

theorem ShellReaches.actAll {sys sys' : System} {order : List Nat}
    (hreach : ShellReaches line std sys) (hact : sys.actAll pid order = some sys') :
    ShellReaches line std sys' := by
  induction order generalizing sys pid with
  | nil =>
    obtain rfl : sys = sys' := Option.some.inj hact
    exact hreach
  | cons i order ih =>
    obtain ⟨sys₁, hone, hact⟩ := bind_eq_some_iff.mp hact
    exact ih (hreach.act hone) hact

/-- A shell that reads a line with two commands. -/
def sampleSystem : System :=
  ⟨[⟨2, [some .stdin, some .stdout, some .stdout], .shell (runLine "a < x|b > y".toList)⟩], [], 7⟩

/-- Both commands are parsed, and the shell and its children run up to `exec` and `waitpid`. -/
theorem sampleSystem_runs :
    ∃ sys p₀ p₁ p₂,
      sampleSystem.actAll 3 [0, 0, 0, 1, 1, 1, 1, 1, 1, 1, 1, 2, 2, 2, 2, 2, 2, 2, 2, 0, 0] =
        some sys ∧ sys.processes = [p₀, p₁, p₂] ∧ p₀.HasClosed ∧ p₁.AtExec ∧ p₂.AtExec :=
  ⟨_, _, _, _, rfl, rfl, .inl ⟨_, _, rfl⟩, .inl ⟨_, _, _, rfl⟩, .inl ⟨_, _, _, rfl⟩⟩

/-- Two commands with a file at both ends. -/
theorem pipeline_descriptors_two :
    ∃ cmds sys p₀ p₁ p₂, Accepts "a < x|b > y".toList cmds ∧
      ShellReaches "a < x|b > y".toList ⟨.stdin, .stdout, .stdout⟩ sys ∧
      sys.processes = [p₀, p₁, p₂] ∧ p₀.HasClosed ∧ p₁.AtExec ∧ p₂.AtExec ∧
      Connected cmds ⟨.stdin, .stdout, .stdout⟩ sys.pipes 0 p₁.fdTable ∧
      Connected cmds ⟨.stdin, .stdout, .stdout⟩ sys.pipes 1 p₂.fdTable ∧
      p₀.fdTable.Opens [.stdin, .stdout, .stdout] := by
  have haccepts : Accepts "a < x|b > y".toList [⟨['x', nul], [], [['a', nul]]⟩,
      ⟨[], ['y', nul], [['b', nul]]⟩] := ⟨by decide, rfl, rfl⟩
  have hstart : ShellReaches "a < x|b > y".toList ⟨.stdin, .stdout, .stdout⟩ sampleSystem :=
    .start (opens_map_some [File.stdin, File.stdout, File.stdout])
      (by simp [StdFiles.toList, File.NotOf])
  obtain ⟨sys, p₀, p₁, p₂, hrun, hprocesses, hclosed, hexec₁, hexec₂⟩ := sampleSystem_runs
  have hreach := hstart.actAll hrun
  obtain ⟨-, hconnected, hshell⟩ := pipeline_descriptors haccepts hreach
  rw [hprocesses] at hconnected hshell
  exact ⟨_, sys, p₀, p₁, p₂, haccepts, hreach, hprocesses, hclosed, hexec₁, hexec₂,
    hconnected 0 p₁ rfl hexec₁, hconnected 1 p₂ rfl hexec₂, (hshell p₀ rfl hclosed).1⟩

end RCore.User
