import SblPayload.Library.PythonText

/-! Python's `shlex.split(text, posix=False)`: words are separated by whitespace, a
quotation mark that opens a word keeps everything up to the next such mark in it,
and the marks stay. -/

namespace SblPayload.Library.Shlex

def whitespace (char : Char) : Bool := char == ' ' || char == '\t' || char == '\r' || char == '\n'

/-- The single and the double quotation mark. -/
def quotation (char : Char) : Bool := char == Char.ofNat 39 || char == Char.ofNat 34

inductive Reading where
  | between
  | word (token : Text)
  | quoted (mark : Char) (token : Text)

structure Lexer where
  tokens : List Text := []
  reading : Reading := .between

namespace Lexer

def read (lexer : Lexer) (char : Char) : Lexer :=
  match lexer.reading with
  | .between =>
    if whitespace char then lexer
    else if quotation char then { lexer with reading := .quoted char [char] }
    else { lexer with reading := .word [char] }
  | .word token =>
    if whitespace char then ⟨lexer.tokens ++ [token], .between⟩
    else { lexer with reading := .word (token ++ [char]) }
  -- the closing mark ends the token, whatever follows it
  | .quoted mark token =>
    if char = mark then ⟨lexer.tokens ++ [token ++ [char]], .between⟩
    else { lexer with reading := .quoted mark (token ++ [char]) }

/-- An unclosed quotation raises a `ValueError`. -/
def finish : Lexer → Option (List Text)
  | ⟨tokens, .between⟩ => some tokens
  | ⟨tokens, .word token⟩ => some (tokens ++ [token])
  | ⟨_, .quoted _ _⟩ => none

end Lexer

def split (text : Text) : Option (List Text) := (text.foldl Lexer.read {}).finish

/-- `" ".join(words)` -/
def unwords (words : List Text) : Text := [' '].intercalate words

def Unbroken (text : Text) : Prop := ∀ char ∈ text, whitespace char = false

instance (text : Text) : Decidable (Unbroken text) := List.decidableBAll (fun char => whitespace char = false) text

structure Bare (text : Text) : Prop where
  opened : ∃ first, text.head? = some first ∧ quotation first = false
  unbroken : Unbroken text

structure Quoted (text : Text) : Prop where
  enclosed : ∃ mark body, quotation mark = true ∧ mark ∉ body ∧ text = mark :: (body ++ [mark])

/-- A token is a word without whitespace that no quotation mark opens, or one
quotation. -/
def Token (text : Text) : Prop := Bare text ∨ Quoted text

section Soundness

/-- What has been read of a token is one, or can still become one. -/
def Reading.Sound : Reading → Prop
  | .between => True
  | .word token => Bare token
  | .quoted mark token => quotation mark = true ∧ ∃ body, token = mark :: body ∧ mark ∉ body

structure Lexer.Sound (lexer : Lexer) : Prop where
  tokens : ∀ token ∈ lexer.tokens, Token token
  reading : lexer.reading.Sound

theorem unbroken_append {first rest : Text} : Unbroken (first ++ rest) ↔ Unbroken first ∧ Unbroken rest :=
  List.forall_mem_append

theorem Bare.append {token rest : Text} (bare : Bare token) (unbroken : Unbroken rest) : Bare (token ++ rest) := by
  obtain ⟨first, head, plain⟩ := bare.opened
  have kept : (token ++ rest).head? = some first := by rw [List.head?_append, head, Option.some_or]
  exact ⟨⟨first, kept, plain⟩, unbroken_append.mpr ⟨bare.unbroken, unbroken⟩⟩

theorem bare_char {char : Char} (visible : whitespace char = false) (plain : quotation char = false) : Bare [char] :=
  ⟨⟨char, rfl, plain⟩, List.forall_mem_singleton.mpr visible⟩

theorem sound_snoc {tokens : List Text} {last : Text} (sound : ∀ token ∈ tokens, Token token) (token : Token last) :
    ∀ token ∈ tokens ++ [last], Token token :=
  List.forall_mem_append.mpr ⟨sound, List.forall_mem_singleton.mpr token⟩

theorem sound_read {lexer : Lexer} (sound : lexer.Sound) (char : Char) : (lexer.read char).Sound := by
  obtain ⟨tokens, reading⟩ := lexer
  obtain ⟨listed, held⟩ := sound
  cases reading with
  | between =>
    unfold Lexer.read
    dsimp only
    split
    · exact ⟨listed, trivial⟩
    next visible =>
      rw [Bool.not_eq_true] at visible
      split
      next marked => exact ⟨listed, marked, [], rfl, List.not_mem_nil⟩
      next plain => exact ⟨listed, bare_char visible (Bool.not_eq_true _ ▸ plain)⟩
  | word token =>
    unfold Lexer.read
    dsimp only
    split
    · exact ⟨sound_snoc listed (Or.inl held), trivial⟩
    next visible =>
      rw [Bool.not_eq_true] at visible
      exact ⟨listed, Bare.append held (List.forall_mem_singleton.mpr visible)⟩
  | quoted mark token =>
    obtain ⟨marked, body, opened, inside⟩ := held
    unfold Lexer.read
    dsimp only
    split
    next closing =>
      have whole : Quoted (token ++ [char]) := ⟨mark, body, marked, inside, by rw [opened, closing, List.cons_append]⟩
      exact ⟨sound_snoc listed (Or.inr whole), trivial⟩
    next other =>
      refine ⟨listed, marked, body ++ [char], by rw [opened, List.cons_append], ?_⟩
      intro member
      cases List.mem_append.mp member with
      | inl early => exact inside early
      | inr last => exact other (List.mem_singleton.mp last).symm

theorem sound_foldl (text : Text) {lexer : Lexer} (sound : lexer.Sound) : (text.foldl Lexer.read lexer).Sound := by
  induction text generalizing lexer with
  | nil => exact sound
  | cons char text ih => exact ih (sound_read sound char)

theorem sound_finish {lexer : Lexer} (sound : lexer.Sound) {tokens : List Text} (finished : lexer.finish = some tokens) :
    ∀ token ∈ tokens, Token token := by
  obtain ⟨read, reading⟩ := lexer
  cases reading with
  | between => exact Option.some.inj finished ▸ sound.tokens
  | word token => exact Option.some.inj finished ▸ sound_snoc sound.tokens (Or.inl sound.reading)
  | quoted mark token => cases finished

/-- Every word of a text that can be split is a token. -/
theorem split_sound {text : Text} {tokens : List Text} (cut : split text = some tokens) :
    ∀ token ∈ tokens, Token token := by
  have fresh : Lexer.Sound {} := ⟨List.forall_mem_nil _, trivial⟩
  exact sound_finish (sound_foldl text fresh) cut

end Soundness

section Words

/-- The tokens already read do not matter for those that follow. -/
theorem read_shift (tokens : List Text) (reading : Reading) (char : Char) :
    Lexer.read ⟨tokens, reading⟩ char =
      ⟨tokens ++ (Lexer.read ⟨[], reading⟩ char).tokens, (Lexer.read ⟨[], reading⟩ char).reading⟩ := by
  cases reading with
  | between =>
    unfold Lexer.read
    dsimp only
    split
    · rw [List.append_nil]
    · split <;> rw [List.append_nil]
  | word token =>
    unfold Lexer.read
    dsimp only
    split
    · rfl
    · rw [List.append_nil]
  | quoted mark token =>
    unfold Lexer.read
    dsimp only
    split
    · rfl
    · rw [List.append_nil]

theorem foldl_shift (text : Text) (tokens : List Text) (reading : Reading) :
    text.foldl Lexer.read ⟨tokens, reading⟩ =
      ⟨tokens ++ (text.foldl Lexer.read ⟨[], reading⟩).tokens, (text.foldl Lexer.read ⟨[], reading⟩).reading⟩ := by
  induction text generalizing tokens reading with
  | nil => rw [List.foldl_nil, List.foldl_nil, List.append_nil]
  | cons char text ih =>
    rw [List.foldl_cons, List.foldl_cons, read_shift, ih, ih (Lexer.read ⟨[], reading⟩ char).tokens, List.append_assoc]

theorem finish_shift (tokens : List Text) (lexer : Lexer) :
    Lexer.finish ⟨tokens ++ lexer.tokens, lexer.reading⟩ = lexer.finish.map (tokens ++ ·) := by
  obtain ⟨listed, reading⟩ := lexer
  cases reading with
  | between => rfl
  | word token => exact congrArg some (List.append_assoc ..)
  | quoted mark token => rfl

theorem read_blank {lexer : Lexer} {tokens : List Text} (finished : lexer.finish = some tokens) :
    lexer.read ' ' = ⟨tokens, .between⟩ := by
  obtain ⟨listed, reading⟩ := lexer
  cases reading with
  | between =>
    cases finished
    rfl
  | word token =>
    cases finished
    rfl
  | quoted mark token => cases finished

/-- A blank after a text that can be split separates its words from what follows. -/
theorem split_append {first : Text} {tokens : List Text} (cut : split first = some tokens) (rest : Text) :
    split (first ++ ' ' :: rest) = (split rest).map (tokens ++ ·) := by
  rw [split, List.foldl_append, List.foldl_cons, read_blank cut, foldl_shift, finish_shift]
  rfl

theorem foldl_word {text : Text} (unbroken : Unbroken text) (token : Text) :
    text.foldl Lexer.read ⟨[], .word token⟩ = ⟨[], .word (token ++ text)⟩ := by
  induction text generalizing token with
  | nil => rw [List.foldl_nil, List.append_nil]
  | cons char text ih =>
    obtain ⟨visible, unbroken⟩ := List.forall_mem_cons.mp unbroken
    have stepped : Lexer.read ⟨[], .word token⟩ char = ⟨[], .word (token ++ [char])⟩ := by
      rw [Lexer.read, visible]
      rfl
    rw [List.foldl_cons, stepped, ih unbroken, List.append_assoc]
    rfl

theorem foldl_quoted {mark : Char} {text : Text} (inside : mark ∉ text) (token : Text) :
    text.foldl Lexer.read ⟨[], .quoted mark token⟩ = ⟨[], .quoted mark (token ++ text)⟩ := by
  induction text generalizing token with
  | nil => rw [List.foldl_nil, List.append_nil]
  | cons char text ih =>
    rw [List.mem_cons, not_or] at inside
    have stepped : Lexer.read ⟨[], .quoted mark token⟩ char = ⟨[], .quoted mark (token ++ [char])⟩ :=
      if_neg (Ne.symm inside.1)
    rw [List.foldl_cons, stepped, ih inside.2, List.append_assoc]
    rfl

theorem whitespace_of_quotation {mark : Char} (marked : quotation mark = true) : whitespace mark = false := by
  rw [quotation, Bool.or_eq_true, beq_iff_eq, beq_iff_eq] at marked
  cases marked with
  | inl same => rw [same]; rfl
  | inr same => rw [same]; rfl

theorem split_token {text : Text} (token : Token text) : split text = some [text] := by
  cases token with
  | inl bare =>
    obtain ⟨first, head, plain⟩ := bare.opened
    obtain ⟨rest, same⟩ := List.head?_eq_some_iff.mp head
    rw [same] at bare ⊢
    obtain ⟨visible, unbroken⟩ := List.forall_mem_cons.mp bare.unbroken
    have opened : Lexer.read {} first = ⟨[], .word [first]⟩ := by
      rw [Lexer.read, visible, plain]
      rfl
    rw [split, List.foldl_cons, opened, foldl_word unbroken]
    rfl
  | inr quoted =>
    obtain ⟨mark, body, marked, inside, same⟩ := quoted.enclosed
    have opened : Lexer.read {} mark = ⟨[], .quoted mark [mark]⟩ := by
      rw [Lexer.read, whitespace_of_quotation marked, marked]
      rfl
    have closed : Lexer.read ⟨[], .quoted mark (mark :: body)⟩ mark = ⟨[mark :: body ++ [mark]], .between⟩ := if_pos rfl
    rw [same, split, List.foldl_cons, opened, List.foldl_append, foldl_quoted inside]
    exact congrArg Lexer.finish closed

theorem unwords_cons (word other : Text) (words : List Text) :
    unwords (word :: other :: words) = word ++ ' ' :: unwords (other :: words) := by
  rw [unwords, unwords, List.intercalate_cons_cons, List.append_assoc]
  rfl

theorem split_unwords {words : List Text} (tokens : ∀ word ∈ words, Token word) : split (unwords words) = some words := by
  induction words with
  | nil => rfl
  | cons word words ih =>
    obtain ⟨token, tokens⟩ := List.forall_mem_cons.mp tokens
    cases words with
    | nil =>
      rw [unwords, List.intercalate_singleton]
      exact split_token token
    | cons other words =>
      rw [unwords_cons, split_append (split_token token), ih tokens]
      rfl

/-- Splitting undoes joining exactly when every word is a token. -/
theorem split_unwords_iff {words : List Text} : split (unwords words) = some words ↔ ∀ word ∈ words, Token word :=
  ⟨split_sound, split_unwords⟩

/-- The same after a text that has words of its own. -/
theorem split_after_iff {first : Text} {tokens : List Text} (cut : split first = some tokens) (words : List Text) :
    split (unwords (first :: words)) = some (tokens ++ words) ↔ ∀ word ∈ words, Token word := by
  cases words with
  | nil =>
    rw [unwords, List.intercalate_singleton, cut, List.append_nil]
    exact iff_of_true rfl (List.forall_mem_nil _)
  | cons word words =>
    rw [unwords_cons, split_append cut, ← split_unwords_iff, Option.map_eq_some_iff]
    constructor
    · intro found
      obtain ⟨others, cut, same⟩ := found
      rw [cut, List.append_cancel_left same]
    · intro cut
      exact ⟨_, cut, rfl⟩

theorem token_flagged {flag : Text} (bare : Bare flag) (text : Text) : Token (flag ++ text) ↔ Unbroken text := by
  constructor
  · intro token
    cases token with
    | inl whole => exact (unbroken_append.mp whole.unbroken).2
    | inr quoted =>
      obtain ⟨mark, body, marked, _, same⟩ := quoted.enclosed
      obtain ⟨first, head, plain⟩ := bare.opened
      have opened : (flag ++ text).head? = some first := by rw [List.head?_append, head, Option.some_or]
      rw [same] at opened
      rw [← Option.some.inj opened, marked] at plain
      cases plain
  · intro unbroken
    exact Or.inl (bare.append unbroken)

end Words

end SblPayload.Library.Shlex
