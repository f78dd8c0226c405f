/-!
# Readers

A reader takes a value off the front of a text, or refuses the text. Loops are bounded by the
length of the text, since every round has to read something.
-/

namespace TypedRecords

/-- Takes a value off the front of a text. -/
abbrev Reader := StateT (List Char) Option

namespace Reader

variable {α β σ : Type}

/-- The next character, if any, left in place. -/
def peek? : Reader (Option Char) := fun text => some (text.head?, text)

/-- Takes the next character. -/
def next : Reader Char
  | [] => none
  | c :: rest => some (c, rest)

/-- Takes the next character if it satisfies `p`. -/
def satisfy (p : Char → Bool) : Reader Char
  | [] => none
  | c :: rest => if p c then some (c, rest) else none

/-- Takes the character `c`. -/
def char (c : Char) : Reader Unit := do
  let _ ← satisfy (· == c)

/-- Takes the character `c` if it is next, and says whether it was. -/
def skipChar (c : Char) : Reader Bool
  | [] => some (false, [])
  | d :: rest => if d = c then some (true, rest) else some (false, d :: rest)

/-- Takes the text `word`. -/
def word (word : String) : Reader Unit := fun text =>
  if word.toList.isPrefixOf text then some ((), text.drop word.length) else none

/-- Takes the text `word` if it is next, and says whether it was. -/
def skipWord (word : String) : Reader Bool := fun text =>
  if word.toList.isPrefixOf text then some (true, text.drop word.length) else some (false, text)

/-- Takes the longest run of characters with `p`. -/
def run (p : Char → Bool) : Reader (List Char) := fun text =>
  some (text.takeWhile p, text.dropWhile p)

/-- Takes the longest run of characters with `p`, which must not be empty. -/
def run1 (p : Char → Bool) : Reader (List Char) := do
  let found ← run p
  if found.isEmpty then failure else pure found

/-- Takes exactly `count` characters with `p`. -/
def exactly (count : Nat) (p : Char → Bool) : Reader (List Char) := fun text =>
  let found := text.take count
  if found.length = count && found.all p then some (found, text.drop count) else none

/-- Rounds of a loop, at most `rounds` of them. -/
def iterateWithin (step : σ → Reader (σ ⊕ β)) : Nat → σ → Reader β
  | 0, _ => failure
  | rounds + 1, state => do
    match ← step state with
    | .inl state => iterateWithin step rounds state
    | .inr result => pure result

/-- Repeats `step` until it gives a result. Every round but the last has to read something. -/
def iterate (step : σ → Reader (σ ⊕ β)) (start : σ) : Reader β := fun text =>
  iterateWithin step (text.length + 1) start text

/-- Reads the whole of a text. -/
def whole? (reader : Reader α) (text : String) : Option α :=
  match reader text.toList with
  | some (value, []) => some value
  | _ => none

end Reader

end TypedRecords
