import RCore.User.Shell

/-!
# The shell and its children

The processes of the shell run interleaved, one system call after the other.  Each has a
descriptor table of its own; a child starts with a copy of its parent's.
-/

namespace RCore.User

open RCore.Lib.Calls RCore.Fs

/-- An open file; a pipe has a number. -/
inductive File where
  | stdin
  | stdout
  | inode (path : List Char) (flags : Nat)
  | pipeRead (pipe : Nat)
  | pipeWrite (pipe : Nat)
  deriving DecidableEq

/-- A process runs the code of the shell, or another program once `exec` has succeeded. -/
inductive Image where
  | shell (prog : UserProg (Option Int))
  | program (path : List Char) (args : List (List Char))
  | zombie
  | reaped

structure Process where
  pid : Nat
  fdTable : FdTable File
  image : Image

namespace Process

/-- `exit_current_and_run_next` drops the descriptors. -/
def exit (self : Process) : Process := { self with fdTable := [], image := .zombie }

/-- Go on after a call. -/
def resume (self : Process) (fdTable : FdTable File) (prog : UserProg (Option Int)) : Process :=
  { self with fdTable := fdTable, image := .shell prog }

def isZombie (self : Process) : Bool :=
  match self.image with
  | .zombie => true
  | _ => false

def isReaped (self : Process) : Bool :=
  match self.image with
  | .reaped => true
  | _ => false

end Process

/-- The shell is the first process, and its children follow in the order of the forks. -/
structure System where
  processes : List Process
  /-- The pipes that these processes have made, in order. -/
  pipes : List Nat
  /-- A number that no pipe has yet. -/
  nextPipe : Nat

/-- A string ends for the kernel with the first zero. -/
def cString (s : List Char) : List Char := s.takeWhile (· ≠ nul)

namespace System

def put (self : System) (i : Nat) (p : Process) : System :=
  { self with processes := self.processes.set i p }

/-- The process `i` makes its next call.  The file system decides whether an `open` or an `exec`
succeeds, and `pid` is the identifier for a new process. -/
def act (self : System) (i : Nat) (succeeds : Bool) (pid : Nat) : Option System := do
  let p ← self.processes[i]?
  match p.image with
  | .zombie => none
  | .reaped => none
  -- another program ends at some time
  | .program _ _ => some (self.put i p.exit)
  | .shell (.pure (some _)) => some (self.put i p.exit)
  -- the shell is back at its prompt
  | .shell (.pure none) => none
  | .shell (.call (.openFile path flags) next) =>
      let inode := if succeeds then some (.inode (cString path) flags) else none
      let (answer, fdTable) := p.fdTable.sysOpen inode
      some (self.put i (p.resume fdTable (next answer)))
  | .shell (.call (.close fd) next) =>
      let (answer, fdTable) := p.fdTable.sysClose fd
      some (self.put i (p.resume fdTable (next answer)))
  | .shell (.call .pipe next) =>
      let (answer, fdTable) :=
        p.fdTable.sysPipe (.pipeRead self.nextPipe) (.pipeWrite self.nextPipe)
      some { self.put i (p.resume fdTable (next answer)) with
        pipes := self.pipes ++ [self.nextPipe], nextPipe := self.nextPipe + 1 }
  | .shell (.call (.dup fd) next) =>
      let (answer, fdTable) := p.fdTable.sysDup fd
      some (self.put i (p.resume fdTable (next answer)))
  | .shell (.call .fork next) =>
      if 0 < pid ∧ ∀ q ∈ self.processes, q.isReaped ∨ q.pid ≠ pid then
        let parent := p.resume p.fdTable (next (pid : Int))
        let child : Process := ⟨pid, p.fdTable.copy, .shell (next (0 : Int))⟩
        some { self with processes := self.processes.set i parent ++ [child] }
      else none
  | .shell (.call (.exec path args) next) =>
      if succeeds then some (self.put i { p with image := .program path args })
      else some (self.put i (p.resume p.fdTable (next (-1 : Int))))
  | .shell (.call (.waitpid child) next) =>
      match self.processes.findIdx? fun q => !q.isReaped && q.pid == child with
      | none => some (self.put i (p.resume p.fdTable (next (-1 : Int))))
      | some j => do
          let q ← self.processes[j]?
          -- otherwise the parent yields and tries again
          if q.isZombie then
            some ((self.put j { q with image := .reaped }).put i
              (p.resume p.fdTable (next (child : Int))))
          else none
  | .shell (.call (.panic _) _) => some (self.put i p.exit)

end System

/-- What the shell has open when it reads a line. -/
structure StdFiles where
  input : File
  output : File
  error : File

def StdFiles.toList (self : StdFiles) : List File := [self.input, self.output, self.error]

/-- A file that is not an end of the pipe. -/
def File.NotOf (pipe : Nat) (file : File) : Prop := file ≠ .pipeRead pipe ∧ file ≠ .pipeWrite pipe

/-- Runs of the shell on one line, in any interleaving with its children; other processes of the
system may make pipes as well. -/
inductive ShellReaches (line : List Char) (std : StdFiles) : System → Prop
  | start {pid nextPipe : Nat} {fdTable : FdTable File} (hopens : fdTable.Opens std.toList)
      (hnext : ∀ file ∈ std.toList, ∀ pipe, nextPipe ≤ pipe → file.NotOf pipe) :
      ShellReaches line std ⟨[⟨pid, fdTable, .shell (runLine line)⟩], [], nextPipe⟩
  | act {sys sys' : System} {i pid : Nat} {succeeds : Bool} (h : ShellReaches line std sys)
      (hact : sys.act i succeeds pid = some sys') : ShellReaches line std sys'
  | others {sys : System} {nextPipe : Nat} (h : ShellReaches line std sys)
      (hnext : sys.nextPipe ≤ nextPipe) : ShellReaches line std { sys with nextPipe := nextPipe }

end RCore.User
