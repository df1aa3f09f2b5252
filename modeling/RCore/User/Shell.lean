import Mathlib.Data.List.SplitOn
import RCore.Lib.Calls
import RCore.Fs.FdTable

/-!
# The shell

The shell splits a line at the bars into commands, makes a pipe between any two
neighbours, and forks a child for each command, which connects its standard input and
output and then executes the program.  Strings are lists of characters.
-/

namespace RCore.User

open RCore.Lib.Calls

/-! ## Parsing a line -/

/-- The character that ends a string for the kernel. -/
def nul : Char := Char.ofNat 0

/-- `args_addr`, the addresses of `args_copy`, is left out. -/
structure ProcessArguments where
  input : List Char
  output : List Char
  argsCopy : List (List Char)

/-- Take out the first `token` with the argument behind it; without one the index is out of
bounds. -/
def redirection (token : List Char) (argsCopy : List (List Char)) :
    Option (List Char × List (List Char)) :=
  match argsCopy.findIdx? (· = token) with
  | none => some ([], argsCopy)
  | some idx => do
      let path ← argsCopy[idx + 1]?
      some (path, argsCopy.take idx ++ argsCopy.drop (idx + 2))

def ProcessArguments.new (command : List Char) : Option ProcessArguments := do
  let args := command.splitOn ' '
  let argsCopy := (args.filter fun arg => !arg.isEmpty).map fun arg => arg ++ [nul]
  let (input, argsCopy) ← redirection ['<', nul] argsCopy
  let (output, argsCopy) ← redirection ['>', nul] argsCopy
  some ⟨input, output, argsCopy⟩

/-- Only the first command may read from a file, and only the last one may write to one. -/
def isValid (processArgumentsList : List ProcessArguments) : Bool :=
  processArgumentsList.length == 1 || processArgumentsList.zipIdx.all fun (processArgs, i) =>
    if i = 0 then processArgs.output.isEmpty
    else if i = processArgumentsList.length - 1 then processArgs.input.isEmpty
    else processArgs.output.isEmpty && processArgs.input.isEmpty

/-! ## System calls -/

/-- Why a program panics. -/
inductive Panic where
  | dupAssertion
  | waitAssertion
  | unwrapNone
  | indexOutOfBounds
  | unreachable
  deriving DecidableEq

/-- A panic ends the process; the others are the system calls of the shell. -/
inductive Syscall where
  | openFile (path : List Char) (flags : Nat)
  | close (fd : Nat)
  | pipe
  | dup (fd : Nat)
  | fork
  | exec (path : List Char) (args : List (List Char))
  | waitpid (pid : Nat)
  | panic (reason : Panic)

/-- `pipe` answers with the two descriptors that it stores. -/
def Answer : Syscall → Type
  | .pipe => Nat × Nat
  | .panic _ => Empty
  | _ => Int

abbrev UserProg := Prog Syscall Answer

def openFile (path : List Char) (flags : Nat) : UserProg Int := Prog.op (Syscall.openFile path flags)

def close (fd : Nat) : UserProg Int := Prog.op (Syscall.close fd)

def pipe : UserProg (Nat × Nat) := Prog.op Syscall.pipe

def dup (fd : Nat) : UserProg Int := Prog.op (Syscall.dup fd)

def fork : UserProg Int := Prog.op Syscall.fork

def exec (path : List Char) (args : List (List Char)) : UserProg Int := Prog.op (Syscall.exec path args)

def waitpid (pid : Nat) : UserProg Int := Prog.op (Syscall.waitpid pid)

def panic {α : Type} (reason : Panic) : UserProg α := .call (.panic reason) Empty.elim

def OpenFlags.rdonly : Nat := 0

def OpenFlags.wronly : Nat := 1

def OpenFlags.create : Nat := 1 <<< 9

/-! ## The child -/

/-- `assert_eq!(dup(fd), target)`. -/
def assertDup (fd target : Nat) : UserProg Unit := do
  let newFd ← dup fd
  if newFd = target then pure () else panic .dupAssertion

/-- Open a file in the place of `target`, if a path is given; `false` if this fails. -/
def redirect (path : List Char) (flags target : Nat) : UserProg Bool :=
  if path.isEmpty then pure true
  else do
    let fd ← openFile path flags
    if fd = -1 then pure false
    else do
      let _ ← close target
      assertDup fd.toNat target
      let _ ← close fd.toNat
      pure true

def redirectInput (input : List Char) : UserProg Bool := redirect input OpenFlags.rdonly 0

def redirectOutput (output : List Char) : UserProg Bool :=
  redirect output (OpenFlags.create ||| OpenFlags.wronly) 1

def receiveInput (pipesFd : List (Nat × Nat)) (i : Nat) : UserProg Unit :=
  if 0 < i then do
    let _ ← close 0
    match pipesFd[i - 1]? with
    | some pipeFd => assertDup pipeFd.1 0
    | none => panic .unwrapNone
  else pure ()

def sendOutput (pipesFd : List (Nat × Nat)) (len i : Nat) : UserProg Unit :=
  if i < len - 1 then do
    let _ ← close 1
    match pipesFd[i]? with
    | some pipeFd => assertDup pipeFd.2 1
    | none => panic .unwrapNone
  else pure ()

def closePipes : List (Nat × Nat) → UserProg Unit
  | [] => pure ()
  | pipeFd :: pipesFd => do
      let _ ← close pipeFd.1
      let _ ← close pipeFd.2
      closePipes pipesFd

/-- The program is executed; if this fails `main` returns. -/
def execute (argsCopy : List (List Char)) : UserProg Int :=
  match argsCopy with
  | [] => panic .indexOutOfBounds
  | path :: _ => do
      let answer ← exec path argsCopy
      if answer = -1 then pure (-4) else panic .unreachable

/-- What child `i` of `len` does; the result is the exit code of the process. -/
def runChild (pipesFd : List (Nat × Nat)) (len i : Nat) (processArgument : ProcessArguments) :
    UserProg Int := do
  let opened ← redirectInput processArgument.input
  if !opened then pure (-4)
  else do
    let opened ← redirectOutput processArgument.output
    if !opened then pure (-4)
    else do
      receiveInput pipesFd i
      sendOutput pipesFd len i
      closePipes pipesFd
      execute processArgument.argsCopy

/-! ## The shell itself -/

def makePipes : Nat → UserProg (List (Nat × Nat))
  | 0 => pure []
  | n + 1 => do
      let pipeFd ← pipe
      let pipesFd ← makePipes n
      pure (pipeFd :: pipesFd)

/-- The shell goes on with the children; a child returns with its exit code. -/
def forkChildren (pipesFd : List (Nat × Nat)) (len : Nat) :
    List (ProcessArguments × Nat) → List Int → UserProg (Int ⊕ List Int)
  | [], children => pure (.inr children)
  | (processArgument, i) :: rest, children => do
      let pid ← fork
      if pid = 0 then do
        let code ← runChild pipesFd len i processArgument
        pure (.inl code)
      else forkChildren pipesFd len rest (children ++ [pid])

def waitChildren : List Int → UserProg Unit
  | [] => pure ()
  | pid :: children => do
      let exitPid ← waitpid pid.toNat
      if pid = exitPid then waitChildren children else panic .waitAssertion

/-- `none` if the shell goes on with the next line, and the exit code in a child. -/
def runPipeline (processArgumentsList : List ProcessArguments) : UserProg (Option Int) := do
  let pipesFd ← makePipes (processArgumentsList.length - 1)
  let forked ← forkChildren pipesFd processArgumentsList.length processArgumentsList.zipIdx []
  match forked with
  | .inl code => pure (some code)
  | .inr children => do
      closePipes pipesFd
      waitChildren children
      pure none

/-- What the shell does with a line. -/
def runLine (line : List Char) : UserProg (Option Int) :=
  if line.isEmpty then pure none
  else
    match (line.splitOn '|').mapM ProcessArguments.new with
    | none => panic .indexOutOfBounds
    | some processArgumentsList =>
        if isValid processArgumentsList then runPipeline processArgumentsList else pure none

end RCore.User
