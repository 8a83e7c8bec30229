import Wordcode.Text.Digit
import Wordcode.Text.Quoted

/-!
# Arguments

A command line is a list of words, and a grammar says which of them are options. Words are first
classified one by one (`tokens`), then matched with the grammar from left to right (`scan`).

* An option is named in full, by an unambiguous start of a long name, or by a short name with its
  value right behind it; a value may also follow behind `=` or as the next word.
* After `--` every word is an operand, whatever it looks like. A negative number is an operand, and
  so is a word with a space in it that names no option.
* Operands are either one word, or everything from the first operand on.
-/

namespace Wordcode

namespace Arguments

/-- An option, which stands for something of type `α`. -/
structure Switch (α : Type) where
  /-- The names, each with its dashes. -/
  names : List String
  /-- Whether the option has a value. -/
  takesValue : Bool
  /-- What the option stands for. -/
  purpose : α
deriving DecidableEq, Repr

/-- An option as messages name it. -/
def Switch.title {α : Type} (switch : Switch α) : String := "/".intercalate switch.names

/-- Which words are operands. -/
inductive Operands where
  /-- One word. -/
  | one
  /-- A word and all words behind it. -/
  | rest
deriving DecidableEq, Repr

/-- What a command line may hold. -/
structure Grammar (α : Type) where
  switches : List (Switch α)
  operands : Operands
deriving Repr

/-- What is wrong with a command line. -/
inductive Misuse where
  /-- A word is the start of the names of several options. -/
  | ambiguous (word : String) (names : List String)
  /-- An option lacks its value. -/
  | missingValue (title : String)
  /-- An option without values has one. -/
  | ignoredValue (title value : String)
  /-- The value of an option is no integer. -/
  | notInteger (title value : String)
  /-- There is no such command. -/
  | unknownCommand (name : String) (commands : List String)
  /-- An operand is missing. -/
  | missingOperand (name : String)
  /-- Some words have no place. -/
  | unrecognized (words : List String)
deriving DecidableEq, Repr

/-- The text of a misuse. -/
def Misuse.message : Misuse → String
  | .ambiguous word names =>
    "ambiguous option: " ++ word ++ " could match " ++ ", ".intercalate names
  | .missingValue title => "argument " ++ title ++ ": expected one argument"
  | .ignoredValue title value =>
    "argument " ++ title ++ ": ignored explicit argument " ++ quoted value
  | .notInteger title value => "argument " ++ title ++ ": invalid int value: " ++ quoted value
  | .unknownCommand name commands =>
    "argument command: invalid choice: " ++ quoted name ++
      " (choose from " ++ ", ".intercalate (commands.map quoted) ++ ")"
  | .missingOperand name => "the following arguments are required: " ++ name
  | .unrecognized words => "unrecognized arguments: " ++ " ".intercalate words

/-! ## Classifying words -/

/-- An option found in a word. -/
structure Found (α : Type) where
  switch : Switch α
  /-- The name by which it was found. -/
  name : String
  /-- What stands behind the name in the same word. -/
  attached : Option (List Char)
deriving DecidableEq, Repr

/-- A classified word. -/
inductive Token (α : Type) where
  /-- A word that may be an operand or a value. -/
  | word (text : String)
  /-- The first `--`. -/
  | marker
  /-- An option of the grammar. -/
  | known (text : String) (found : Found α)
  /-- A word that looks like an option, and is none of the grammar. -/
  | unknown (text : String)
deriving Repr

/-- The word itself. -/
def Token.text {α : Type} : Token α → String
  | .word text => text
  | .marker => "--"
  | .known text _ => text
  | .unknown text => text

variable {α : Type}

/-- The option with the given name. -/
def switchNamed? (switches : List (Switch α)) (name : String) : Option (Switch α) :=
  switches.find? (·.names.contains name)

/-- Whether a text is a minus sign and a number: digits, with or without a fraction. A newline may
end it. -/
def isNegativeNumber (text : List Char) : Bool :=
  match text with
  | '-' :: body =>
    let body := if body.getLast? = some '\n' then body.dropLast else body
    let isDigit (c : Char) := (digitValue? c).isSome
    match body.takeWhile isDigit, body.dropWhile isDigit with
    | whole, [] => !whole.isEmpty
    | _, '.' :: fraction => !fraction.isEmpty && fraction.all isDigit
    | _, _ => false
  | _ => false

/-- A text cut at its first `=`, if it has one. -/
def splitAtEquals (text : List Char) : List Char × Option (List Char) :=
  match text.dropWhile (· ≠ '=') with
  | [] => (text, none)
  | _ :: value => (text.takeWhile (· ≠ '='), some value)

/-- The options that a word with a dash in front may be short for. -/
def candidates (switches : List (Switch α)) (text : List Char) : List (Found α) :=
  let named := switches.flatMap fun switch => switch.names.map fun name => (switch, name)
  if ['-', '-'].isPrefixOf text then
    let (start, attached) := splitAtEquals text
    named.filterMap fun (switch, name) =>
      if start.isPrefixOf name.toList then some ⟨switch, name, attached⟩ else none
  else
    named.filterMap fun (switch, name) =>
      if name.toList = text.take 2 then some ⟨switch, name, some (text.drop 2)⟩
      else if text.isPrefixOf name.toList then some ⟨switch, name, none⟩
      else none

/-- A word that is neither `--` nor behind it. -/
def classify (switches : List (Switch α)) (word : String) : Except Misuse (Token α) :=
  let text := word.toList
  if text.head? ≠ some '-' then .ok (.word word)
  else match switchNamed? switches word with
    | some switch => .ok (.known word ⟨switch, word, none⟩)
    | none =>
      if text.length = 1 then .ok (.word word)
      else
        let (start, attached) := splitAtEquals text
        let name := String.ofList start
        match attached, switchNamed? switches name with
        | some value, some switch => .ok (.known word ⟨switch, name, some value⟩)
        | _, _ =>
          match candidates switches text with
          | [found] => .ok (.known word found)
          | [] =>
            if isNegativeNumber text || text.contains ' ' then .ok (.word word)
            else .ok (.unknown word)
          | several => .error (.ambiguous word (several.map (·.name)))

/-- The classified words of a command line. -/
def tokens (switches : List (Switch α)) : List String → Except Misuse (List (Token α))
  | [] => .ok []
  | word :: words =>
    if word = "--" then .ok (.marker :: words.map .word)
    else do
      let token ← classify switches word
      return token :: (← tokens switches words)

/-! ## Matching the grammar -/

/-- A part of a command line. -/
inductive Part (α : Type) where
  /-- An option, with its value if it has one. -/
  | option (switch : Switch α) (value : Option String)
  /-- The only operand. -/
  | operand (word : String)
  /-- The operands from the first on. -/
  | operands (words : List String)
  /-- A word that has no place. -/
  | extra (word : String)
  /-- A misuse, behind which nothing is looked at. -/
  | misuse (misuse : Misuse)
deriving Repr

/-- What the word of an option amounts to. -/
inductive Resolved (α : Type) where
  /-- These parts. -/
  | parts (parts : List (Part α))
  /-- These parts, and an option whose value is the next word. -/
  | wantsValue (parts : List (Part α)) (switch : Switch α)

/-- What a word amounts to that goes on behind the short option `switch`, which has no value: each
letter is one more short option, up to one that has a value. The parts in `earlier` are read. -/
def resolveLetters (switches : List (Switch α)) (earlier : List (Part α)) (switch : Switch α) :
    List Char → Resolved α
  | [] => .parts (earlier ++ [.option switch none])
  | letter :: text =>
    let earlier' := earlier ++ [.option switch none]
    match switchNamed? switches (String.ofList ['-', letter]) with
    | none => .parts [.misuse (.ignoredValue switch.title (String.ofList (letter :: text)))]
    | some next =>
      if !next.takesValue then resolveLetters switches earlier' next text
      else if text.isEmpty then .wantsValue earlier' next
      else .parts (earlier' ++ [.option next (some (String.ofList text))])

/-- What the word of an option amounts to. -/
def resolve (switches : List (Switch α)) (found : Found α) : Resolved α :=
  let switch := found.switch
  match switch.takesValue, found.attached with
  | true, none => .wantsValue [] switch
  | true, some value => .parts [.option switch (some (String.ofList value))]
  | false, none => .parts [.option switch none]
  | false, some value =>
    if ['-', '-'].isPrefixOf found.name.toList || value.isEmpty then
      .parts [.misuse (.ignoredValue switch.title (String.ofList value))]
    else resolveLetters switches [] switch value

/-- The tokens behind a marker that stands in front. -/
def dropMarker : List (Token α) → List (Token α)
  | .marker :: tokens => tokens
  | tokens => tokens

theorem length_dropMarker_le (l : List (Token α)) : (dropMarker l).length ≤ l.length := by
  unfold dropMarker
  split <;> simp

/-- The parts of a command line. The flag tells whether the operand has been found. -/
def scan (grammar : Grammar α) (complete : Bool) : List (Token α) → List (Part α)
  | [] => []
  | .word word :: tokens =>
    if complete then .extra word :: scan grammar true tokens
    else match grammar.operands with
      | .one => .operand word :: scan grammar true (dropMarker tokens)
      | .rest => [.operands (word :: tokens.map Token.text)]
  | .marker :: tokens =>
    match complete, tokens with
    | false, .word word :: tokens =>
      match grammar.operands with
      | .one => .operand word :: scan grammar true tokens
      | .rest => [.operands ("--" :: word :: tokens.map Token.text)]
    | _, tokens => .extra "--" :: scan grammar complete tokens
  | .unknown word :: tokens => .extra word :: scan grammar complete tokens
  | .known _ found :: tokens =>
    match resolve grammar.switches found with
    | .parts parts => parts ++ scan grammar complete tokens
    | .wantsValue parts switch =>
      match tokens with
      | .word value :: tokens =>
        parts ++ .option switch (some value) :: scan grammar complete tokens
      | _ => [.misuse (.missingValue switch.title)]
termination_by tokens => tokens.length
decreasing_by
  all_goals
    simp only [List.length_cons]
    try have := length_dropMarker_le tokens
    omega

/-- The parts of a command line. -/
def parse (grammar : Grammar α) (words : List String) : List (Part α) :=
  match tokens grammar.switches words with
  | .error misuse => [.misuse misuse]
  | .ok tokens => scan grammar false tokens

end Arguments

end Wordcode
