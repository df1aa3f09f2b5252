import RCore.User.Shell

/-!
# The arguments of a command

`ProcessArguments::new` takes the two redirections out of the words of a command, one after
the other.  What it makes of them is compared with a reading of the words from left to
right, which knows nothing of positions.
-/

namespace RCore.User

open List

/-- `args_addr`: where each of the strings in `args_copy` has its bytes, and a null pointer.
The strings are moved afterwards, but their bytes stay where they are. -/
def ProcessArguments.argsAddr (self : ProcessArguments) (asPtr : Nat → Nat) : List Nat :=
  (self.argsCopy.zipIdx.map fun arg => asPtr arg.2) ++ [0]

theorem ProcessArguments.length_argsAddr (self : ProcessArguments) (asPtr : Nat → Nat) :
    (self.argsAddr asPtr).length = self.argsCopy.length + 1 := by
  simp [argsAddr]

theorem ProcessArguments.getElem?_argsAddr (self : ProcessArguments) (asPtr : Nat → Nat) {i : Nat}
    (hi : i < self.argsCopy.length) : (self.argsAddr asPtr)[i]? = some (asPtr i) := by
  unfold argsAddr
  rw [getElem?_append_left (by simpa using hi)]
  simp [hi]

theorem ProcessArguments.getLast?_argsAddr (self : ProcessArguments) (asPtr : Nat → Nat) :
    (self.argsAddr asPtr).getLast? = some 0 :=
  getLast?_concat

/-! ## The words of a command -/

/-- The non-empty words between the spaces. -/
def wordsOf (command : List Char) : List (List Char) :=
  (command.splitOn ' ').filter fun arg => !arg.isEmpty

/-- A word as the kernel reads it. -/
def terminated (word : List Char) : List Char :=
  word ++ [nul]

def IsOperator (word : List Char) : Prop :=
  word = ['<'] ∨ word = ['>']
  deriving Decidable

/-- The word behind the first `token`. -/
def behind (token : List Char) : List (List Char) → Option (List Char)
  | [] => none
  | word :: words => if word = token then words.head? else behind token words

/-- The words without the first `token` and the word behind it. -/
def without (token : List Char) : List (List Char) → List (List Char)
  | [] => []
  | word :: words => if word = token then words.tail else word :: without token words

/-- The first `token`, if there is one, has a word behind it. -/
def Complete (token : List Char) (words : List (List Char)) : Prop :=
  token ∈ words → (behind token words).isSome

instance (token : List Char) (words : List (List Char)) : Decidable (Complete token words) :=
  inferInstanceAs (Decidable (_ → _))

/-- The words that are neither an operator nor the target of one. -/
def plainWords : List (List Char) → List (List Char)
  | [] => []
  | [word] => if IsOperator word then [] else [word]
  | word :: target :: words =>
      if IsOperator word then plainWords words else word :: plainWords (target :: words)

/-- Each operator occurs at most once, and with a word behind it that is not one. -/
structure WellFormed (words : List (List Char)) : Prop where
  input_once : words.count ['<'] ≤ 1
  output_once : words.count ['>'] ≤ 1
  target : ∀ before word after, words = before ++ word :: after → IsOperator word →
    ∃ path rest, after = path :: rest ∧ ¬IsOperator path

/-! ## Taking out one redirection -/

section Words

variable {token word : List Char} {words : List (List Char)}

theorem terminated_inj {word' : List Char} : terminated word = terminated word' ↔ word = word' :=
  append_left_inj [nul]

theorem redirection_cons (arg : List Char) (args : List (List Char)) :
    redirection token (arg :: args) =
      if arg = token then args.head?.map fun path => (path, args.tail)
      else (redirection token args).map fun result => (result.1, arg :: result.2) := by
  unfold redirection
  by_cases harg : arg = token
  · cases args <;> simp [harg, findIdx?_cons]
  · simp only [findIdx?_cons, harg, decide_false, Bool.false_eq_true, if_false]
    cases args.findIdx? (· = token) with
    | none => rfl
    | some idx => cases hpath : args[idx + 1]? <;> simp [hpath]

@[simp] theorem behind_cons_self : behind token (token :: words) = words.head? := by
  simp [behind]

@[simp] theorem without_cons_self : without token (token :: words) = words.tail := by
  simp [without]

theorem behind_cons_of_ne (h : word ≠ token) :
    behind token (word :: words) = behind token words := by
  simp [behind, h]

theorem without_cons_of_ne (h : word ≠ token) :
    without token (word :: words) = word :: without token words := by
  simp [without, h]

theorem complete_cons_of_ne (h : word ≠ token) :
    Complete token (word :: words) ↔ Complete token words := by
  unfold Complete
  rw [behind_cons_of_ne h, mem_cons, or_iff_right (Ne.symm h)]

theorem redirection_words (token : List Char) (words : List (List Char)) :
    redirection (terminated token) (words.map terminated) =
      if Complete token words then
        some (((behind token words).map terminated).getD [],
          (without token words).map terminated)
      else none := by
  induction words with
  | nil => simp [redirection, Complete, behind, without]
  | cons word words ih =>
    simp only [map_cons, redirection_cons, terminated_inj]
    by_cases hword : word = token
    · subst hword
      cases words <;> simp [Complete]
    · rw [if_neg hword, ih, behind_cons_of_ne hword, without_cons_of_ne hword]
      by_cases hcomplete : Complete token words
      · simp [(complete_cons_of_ne hword).mpr hcomplete, hcomplete]
      · simp [mt (complete_cons_of_ne hword).mp hcomplete, hcomplete]

/-! ## Well-formed words -/

theorem plainWords_cons (hword : ¬IsOperator word) :
    plainWords (word :: words) = word :: plainWords words := by
  cases words <;> simp [plainWords, hword]

theorem plainWords_operator (hword : IsOperator word) (path : List Char) :
    plainWords (word :: path :: words) = plainWords words := by
  simp [plainWords, hword]

theorem plainWords_of_forall (h : ∀ word ∈ words, ¬IsOperator word) :
    plainWords words = words := by
  induction words with
  | nil => rfl
  | cons word words ih =>
    rw [plainWords_cons (h word mem_cons_self),
      ih fun word' hmem => h word' (mem_cons_of_mem word hmem)]

namespace WellFormed

theorem of_cons (h : WellFormed (word :: words)) : WellFormed words where
  input_once := Nat.le_trans count_le_count_cons h.input_once
  output_once := Nat.le_trans count_le_count_cons h.output_once
  target before word' after hwords hword' :=
    h.target (word :: before) word' after (by rw [hwords, cons_append]) hword'

theorem of_operator (h : WellFormed (word :: words)) (hword : IsOperator word) :
    ∃ path rest, words = path :: rest ∧ ¬IsOperator path ∧ word ∉ rest ∧ WellFormed rest := by
  obtain ⟨path, rest, rfl, hpath⟩ := h.target [] word words rfl hword
  refine ⟨path, rest, rfl, hpath, ?_, h.of_cons.of_cons⟩
  have honce : (word :: path :: rest).count word ≤ 1 := by
    cases hword with
    | inl hword => exact hword ▸ h.input_once
    | inr hword => exact hword ▸ h.output_once
  intro hmem
  have hcount : 0 < rest.count word := count_pos_iff.mpr hmem
  have hle : rest.count word ≤ (path :: rest).count word := count_le_count_cons
  rw [count_cons_self] at honce
  omega

theorem complete (h : WellFormed words) (htoken : IsOperator token) : Complete token words := by
  induction words with
  | nil => simp [Complete]
  | cons word words ih =>
    by_cases hword : word = token
    · subst hword
      obtain ⟨path, rest, rfl, -⟩ := h.of_operator htoken
      simp [Complete]
    · exact (complete_cons_of_ne hword).mpr (ih h.of_cons)

theorem without_eq_plainWords (h : WellFormed words) (htoken : IsOperator token)
    (honly : ∀ word ∈ words, IsOperator word → word = token) :
    without token words = plainWords words := by
  induction words with
  | nil => rfl
  | cons word words ih =>
    have honly' : ∀ word' ∈ words, IsOperator word' → word' = token := fun word' hmem =>
      honly word' (mem_cons_of_mem word hmem)
    by_cases hword : IsOperator word
    · obtain rfl : word = token := honly word mem_cons_self hword
      obtain ⟨path, rest, rfl, -, hrest, -⟩ := h.of_operator hword
      have hplain : ∀ word' ∈ rest, ¬IsOperator word' := by
        intro word' hmem hword'
        have heq : word' = word := honly' word' (mem_cons_of_mem path hmem) hword'
        exact hrest (heq ▸ hmem)
      rw [plainWords_operator hword, plainWords_of_forall hplain]
      simp
    · have hne : word ≠ token := fun heq => hword (heq ▸ htoken)
      rw [without_cons_of_ne hne, plainWords_cons hword, ih h.of_cons honly']

/-- The input redirection neither takes the target of the output away nor changes it, and
both together leave the plain words. -/
theorem output_after_input (h : WellFormed words) :
    Complete ['>'] (without ['<'] words) ∧
      behind ['>'] (without ['<'] words) = behind ['>'] words ∧
      without ['>'] (without ['<'] words) = plainWords words := by
  induction words with
  | nil => simp [Complete, behind, without, plainWords]
  | cons word words ih =>
    by_cases hword : IsOperator word
    · obtain ⟨path, rest, rfl, hpath, hrest, hwf⟩ := h.of_operator hword
      have hinput : path ≠ ['<'] := fun heq => hpath (Or.inl heq)
      have houtput : path ≠ ['>'] := fun heq => hpath (Or.inr heq)
      rw [plainWords_operator hword]
      cases hword with
      | inl hword =>
        subst hword
        rw [without_cons_self, tail_cons, behind_cons_of_ne (by decide), behind_cons_of_ne houtput]
        refine ⟨hwf.complete (Or.inr rfl), rfl, hwf.without_eq_plainWords (Or.inr rfl) ?_⟩
        intro word hmem hword
        exact hword.resolve_left fun heq => hrest (heq ▸ hmem)
      | inr hword =>
        subst hword
        have hplain : without ['<'] rest = plainWords rest := by
          refine hwf.without_eq_plainWords (Or.inl rfl) ?_
          intro word hmem hword
          exact hword.resolve_right fun heq => hrest (heq ▸ hmem)
        rw [without_cons_of_ne (by decide), without_cons_of_ne hinput]
        simp [Complete, hplain]
    · have hinput : word ≠ ['<'] := fun heq => hword (Or.inl heq)
      have houtput : word ≠ ['>'] := fun heq => hword (Or.inr heq)
      obtain ⟨hcomplete, hbehind, hwithout⟩ := ih h.of_cons
      rw [without_cons_of_ne hinput, complete_cons_of_ne houtput, behind_cons_of_ne houtput,
        behind_cons_of_ne houtput, without_cons_of_ne houtput, plainWords_cons hword]
      exact ⟨hcomplete, hbehind, congrArg (word :: ·) hwithout⟩

end WellFormed

end Words

/-! ## What the shell makes of a command -/

/-- Both redirections find a target: the first `<`, and then, among the words that are left,
the first `>`. -/
def Redirects (words : List (List Char)) : Prop :=
  Complete ['<'] words ∧ Complete ['>'] (without ['<'] words)
  deriving Decidable

theorem ProcessArguments.new_eq (command : List Char) :
    ProcessArguments.new command =
      if Redirects (wordsOf command) then
        some
          { input := ((behind ['<'] (wordsOf command)).map terminated).getD []
            output := ((behind ['>'] (without ['<'] (wordsOf command))).map terminated).getD []
            argsCopy := (without ['>'] (without ['<'] (wordsOf command))).map terminated }
      else none := by
  have hinput := redirection_words ['<'] (wordsOf command)
  have houtput := redirection_words ['>'] (without ['<'] (wordsOf command))
  change redirection ['<', nul] ((wordsOf command).map terminated) = _ at hinput
  change redirection ['>', nul] ((without ['<'] (wordsOf command)).map terminated) = _ at houtput
  change (redirection ['<', nul] ((wordsOf command).map terminated) >>= fun parsed =>
    redirection ['>', nul] parsed.2 >>= fun parsed' =>
      some (ProcessArguments.mk parsed.1 parsed'.1 parsed'.2)) = _
  rw [hinput]
  unfold Redirects
  by_cases hlt : Complete ['<'] (wordsOf command)
  · by_cases hgt : Complete ['>'] (without ['<'] (wordsOf command))
    · simp [hlt, hgt, houtput]
    · simp [hlt, hgt, houtput]
  · simp [hlt]

/-- The redirections, the arguments and their addresses are those of the words. -/
structure ProcessArguments.Describes (self : ProcessArguments) (asPtr : Nat → Nat)
    (words : List (List Char)) : Prop where
  input : self.input = ((behind ['<'] words).map terminated).getD []
  output : self.output = ((behind ['>'] words).map terminated).getD []
  argsCopy : self.argsCopy = (plainWords words).map terminated
  length_argsAddr : (self.argsAddr asPtr).length = self.argsCopy.length + 1
  argsAddr : ∀ i, i < self.argsCopy.length → (self.argsAddr asPtr)[i]? = some (asPtr i)
  null : (self.argsAddr asPtr).getLast? = some 0

/-- A command is parsed if and only if both redirections find a target, which they do in a
well-formed one; then the result is what the words say. -/
theorem new_parses_iff (command : List Char) (asPtr : Nat → Nat) :
    ((∃ parsed, ProcessArguments.new command = some parsed ∧
        (WellFormed (wordsOf command) → parsed.Describes asPtr (wordsOf command))) ↔
      Redirects (wordsOf command)) ∧
    (WellFormed (wordsOf command) → Redirects (wordsOf command)) := by
  constructor
  · constructor
    · rintro ⟨parsed, hnew, -⟩
      rw [ProcessArguments.new_eq] at hnew
      by_contra hredirects
      simp [hredirects] at hnew
    · intro hredirects
      refine ⟨_, (ProcessArguments.new_eq command).trans (if_pos hredirects), fun hwf => ?_⟩
      obtain ⟨-, hbehind, hwithout⟩ := hwf.output_after_input
      rw [hbehind, hwithout]
      exact
        { input := rfl
          output := rfl
          argsCopy := rfl
          length_argsAddr := ProcessArguments.length_argsAddr _ asPtr
          argsAddr := fun i hi => ProcessArguments.getElem?_argsAddr _ asPtr hi
          null := ProcessArguments.getLast?_argsAddr _ asPtr }
  · intro hwf
    exact ⟨hwf.complete (Or.inl rfl), hwf.output_after_input.1⟩

/-- The command `a < b`. -/
theorem new_parses_iff_input :
    ∃ parsed, ProcessArguments.new ['a', ' ', '<', ' ', 'b'] = some parsed ∧
      parsed.Describes (100 + ·) [['a'], ['<'], ['b']] := by
  have hwords : wordsOf ['a', ' ', '<', ' ', 'b'] = [['a'], ['<'], ['b']] := by decide
  have hwf : WellFormed (wordsOf ['a', ' ', '<', ' ', 'b']) := by
    rw [hwords]
    constructor
    · decide
    · decide
    · intro before word after heq hword
      have hcases : word = ['a'] ∨ (word = ['<'] ∧ after = [['b']]) ∨ word = ['b'] := by
        simp only [List.cons_eq_append_iff, List.nil_eq_append_iff] at heq
        grind
      rcases hcases with rfl | ⟨rfl, rfl⟩ | rfl
      · exact absurd hword (by decide)
      · exact ⟨['b'], [], rfl, by decide⟩
      · exact absurd hword (by decide)
  obtain ⟨hiff, hredirects⟩ := new_parses_iff ['a', ' ', '<', ' ', 'b'] (100 + ·)
  obtain ⟨parsed, hnew, hdescribes⟩ := hiff.mpr (hredirects hwf)
  exact ⟨parsed, hnew, hwords ▸ hdescribes hwf⟩

/-- The shell itself panics on `a <`, and on `> < a`, where the input takes away the words
that the output needs. -/
theorem new_panics_without_target :
    ProcessArguments.new ['a', ' ', '<'] = none ∧
      ProcessArguments.new ['>', ' ', '<', ' ', 'a'] = none := by
  decide

end RCore.User
