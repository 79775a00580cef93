import Mathlib.Data.List.Basic
import Mathlib.Data.List.Infix

/-! Backtracking patterns and the leftmost, non-overlapping scan of a list. A
pattern lists what is left of the input after each way it can match at the head,
in the order a backtracking matcher tries them; the first way is the match. -/

namespace SblPayload.Library

variable {α : Type}

inductive Pattern (α : Type) where
  | one (accepts : α → Bool)
  | many (accepts : α → Bool)
  | seq (first second : Pattern α)

namespace Pattern

/-- Greedy repetition, at least once: the longest run is tried first. -/
def runs (accepts : α → Bool) : List α → List (List α)
  | [] => []
  | symbol :: text => if accepts symbol then runs accepts text ++ [text] else []

def ends : Pattern α → List α → List (List α)
  | .one _, [] => []
  | .one accepts, symbol :: text => if accepts symbol then [text] else []
  | .many accepts, text => runs accepts text
  | .seq first second, text => (first.ends text).flatMap second.ends

def width (pattern : Pattern α) (text : List α) : Option Nat :=
  (pattern.ends text).head?.map fun rest => text.length - rest.length

/-- The language of a pattern, without any order of alternatives. -/
def Accepts : Pattern α → List α → Prop
  | .one accepts, word => ∃ symbol, accepts symbol = true ∧ word = [symbol]
  | .many accepts, word => word ≠ [] ∧ ∀ symbol ∈ word, accepts symbol = true
  | .seq first second, word => ∃ left right, first.Accepts left ∧ second.Accepts right ∧ word = left ++ right

theorem Accepts.nonempty {pattern : Pattern α} {word : List α} (accepted : pattern.Accepts word) : word ≠ [] := by
  induction pattern generalizing word with
  | one accepts =>
    obtain ⟨symbol, _, rfl⟩ := accepted
    simp
  | many accepts => exact accepted.1
  | seq first second ih _ =>
    obtain ⟨left, right, head, _, rfl⟩ := accepted
    simp [ih head]

theorem mem_runs {accepts : α → Bool} {text rest : List α} :
    rest ∈ runs accepts text ↔ ∃ word, (Pattern.many accepts).Accepts word ∧ text = word ++ rest := by
  induction text with
  | nil =>
    simp only [runs, List.not_mem_nil, false_iff, not_exists, not_and]
    intro word accepted same
    exact accepted.1 (List.append_eq_nil_iff.mp same.symm).1
  | cons symbol text ih =>
    constructor
    · intro member
      simp only [runs] at member
      split at member
      next passes =>
        rcases List.mem_append.mp member with longer | last
        · obtain ⟨word, accepted, rfl⟩ := ih.mp longer
          exact ⟨symbol :: word, ⟨by simp, by simpa [passes] using accepted.2⟩, rfl⟩
        · rw [List.mem_singleton.mp last]
          exact ⟨[symbol], ⟨by simp, by simp [passes]⟩, rfl⟩
      next => cases member
    · rintro ⟨word, ⟨nonempty, all⟩, same⟩
      cases word with
      | nil => exact absurd rfl nonempty
      | cons head tail =>
        obtain ⟨rfl, rfl⟩ := List.cons.inj same
        have passes : accepts symbol = true := all symbol (by simp)
        simp only [runs, passes, ↓reduceIte, List.mem_append, List.mem_singleton]
        cases tail with
        | nil => exact Or.inr rfl
        | cons next tail =>
          exact Or.inl (ih.mpr ⟨next :: tail, ⟨by simp, fun other member => all other (by simp [member])⟩, rfl⟩)

theorem mem_ends {pattern : Pattern α} {text rest : List α} :
    rest ∈ pattern.ends text ↔ ∃ word, pattern.Accepts word ∧ text = word ++ rest := by
  induction pattern generalizing text rest with
  | one accepts =>
    cases text with
    | nil =>
      simp only [ends, List.not_mem_nil, false_iff, not_exists, not_and]
      rintro word ⟨symbol, _, rfl⟩ same
      cases same
    | cons symbol text =>
      simp only [ends]
      split
      next passes =>
        simp only [List.mem_singleton]
        constructor
        · rintro rfl
          exact ⟨[symbol], ⟨symbol, passes, rfl⟩, rfl⟩
        · rintro ⟨word, ⟨head, _, rfl⟩, same⟩
          exact (List.cons.inj same).2.symm
      next fails =>
        simp only [List.not_mem_nil, false_iff, not_exists, not_and]
        rintro word ⟨head, passes, rfl⟩ same
        rw [(List.cons.inj same).1] at fails
        exact fails passes
  | many accepts => exact mem_runs
  | seq first second leftIh rightIh =>
    simp only [ends, List.mem_flatMap, leftIh, rightIh]
    constructor
    · rintro ⟨middle, ⟨left, head, rfl⟩, right, tail, rfl⟩
      exact ⟨left ++ right, ⟨left, right, head, tail, rfl⟩, by simp⟩
    · rintro ⟨word, ⟨left, right, head, tail, rfl⟩, rfl⟩
      exact ⟨right ++ rest, ⟨left, head, by simp⟩, right, tail, rfl⟩

theorem width_none {pattern : Pattern α} {text : List α} :
    pattern.width text = none ↔ ∀ word rest, text = word ++ rest → ¬ pattern.Accepts word := by
  simp only [width, Option.map_eq_none_iff, List.head?_eq_none_iff, List.eq_nil_iff_forall_not_mem]
  constructor
  · intro empty word rest same accepted
    exact empty rest (mem_ends.mpr ⟨word, accepted, same⟩)
  · intro silent rest member
    obtain ⟨word, accepted, same⟩ := mem_ends.mp member
    exact silent word rest same accepted

theorem width_some {pattern : Pattern α} {text : List α} {count : Nat} (found : pattern.width text = some count) :
    ∃ word rest, pattern.Accepts word ∧ text = word ++ rest ∧ count = word.length := by
  simp only [width, Option.map_eq_some_iff] at found
  obtain ⟨rest, head, rfl⟩ := found
  obtain ⟨word, accepted, rfl⟩ := mem_ends.mp (List.mem_of_mem_head? head)
  exact ⟨word, rest, accepted, rfl, by simp⟩

/-- No word of the pattern begins another word with a different continuation, so
a text has at most one match at its head and backtracking has no choice. -/
def Unambiguous (pattern : Pattern α) : Prop :=
  ∀ left right after other, pattern.Accepts left → pattern.Accepts right → left ++ after = right ++ other → left = right

theorem Unambiguous.width {pattern : Pattern α} (unique : pattern.Unambiguous) {word : List α}
    (accepted : pattern.Accepts word) (rest : List α) : pattern.width (word ++ rest) = some word.length := by
  cases found : pattern.width (word ++ rest) with
  | none => exact absurd accepted (width_none.mp found word rest rfl)
  | some count =>
    obtain ⟨other, after, matched, same, rfl⟩ := width_some found
    rw [unique word other rest after accepted matched same]

end Pattern

/-- A text cut at its matches: what precedes each match, the match, and what
follows the last one. -/
structure Pieces (α : Type) where
  found : List (List α × List α)
  tail : List α
deriving DecidableEq

namespace Pieces

def render (replace : List α → List α) (pieces : Pieces α) : List α :=
  pieces.found.flatMap (fun (gap, entry) => gap ++ replace entry) ++ pieces.tail

def text (pieces : Pieces α) : List α := pieces.render id

def entries (pieces : Pieces α) : List (List α) := pieces.found.map Prod.snd

def gaps (pieces : Pieces α) : List (List α) := pieces.found.map Prod.fst ++ [pieces.tail]

def push (symbol : α) : Pieces α → Pieces α
  | ⟨[], tail⟩ => ⟨[], symbol :: tail⟩
  | ⟨(gap, entry) :: found, tail⟩ => ⟨(symbol :: gap, entry) :: found, tail⟩

def cut (entry : List α) (pieces : Pieces α) : Pieces α := ⟨([], entry) :: pieces.found, pieces.tail⟩

@[simp] theorem render_cons (replace : List α → List α) (gap entry : List α)
    (found : List (List α × List α)) (tail : List α) :
    render replace ⟨(gap, entry) :: found, tail⟩ = gap ++ (replace entry ++ render replace ⟨found, tail⟩) := by
  simp [render]

@[simp] theorem text_nil (tail : List α) : text ⟨[], tail⟩ = tail := rfl

@[simp] theorem text_cons (gap entry : List α) (found : List (List α × List α)) (tail : List α) :
    text ⟨(gap, entry) :: found, tail⟩ = gap ++ (entry ++ text ⟨found, tail⟩) := render_cons ..

def map (change : List α → List α) (pieces : Pieces α) : Pieces α :=
  ⟨pieces.found.map fun (gap, entry) => (gap, change entry), pieces.tail⟩

theorem render_map (change replace : List α → List α) (pieces : Pieces α) :
    (pieces.map change).render replace = pieces.render (replace ∘ change) := by
  simp [map, render, List.flatMap_map]

theorem map_text (change : List α → List α) (pieces : Pieces α) :
    (pieces.map change).text = pieces.render change := render_map change id pieces

theorem push_text (symbol : α) (pieces : Pieces α) : (pieces.push symbol).text = symbol :: pieces.text := by
  rcases pieces with ⟨_ | ⟨⟨gap, entry⟩, found⟩, tail⟩ <;> simp [push]

end Pieces

namespace Pattern

/-- The leftmost scan. The counter walks over the rest of a match already taken,
so that the recursion follows the text. -/
def scan (pattern : Pattern α) : Nat → List α → Pieces α
  | _, [] => ⟨[], []⟩
  | skip + 1, _ :: text => pattern.scan skip text
  | 0, symbol :: text =>
    match pattern.width (symbol :: text) with
    | some count => (pattern.scan (count - 1) text).cut ((symbol :: text).take count)
    | none => (pattern.scan 0 text).push symbol

def pieces (pattern : Pattern α) (text : List α) : Pieces α := pattern.scan 0 text

def sub (pattern : Pattern α) (replace : List α → List α) (text : List α) : List α :=
  (pattern.pieces text).render replace

@[simp] theorem pieces_nil (pattern : Pattern α) : pattern.pieces [] = ⟨[], []⟩ := rfl

theorem scan_skip (pattern : Pattern α) (taken rest : List α) :
    pattern.scan taken.length (taken ++ rest) = pattern.pieces rest := by
  induction taken with
  | nil => rfl
  | cons symbol taken ih =>
    simp only [List.length_cons, List.cons_append, scan]
    exact ih

theorem pieces_silent {pattern : Pattern α} {symbol : α} {text : List α}
    (silent : pattern.width (symbol :: text) = none) :
    pattern.pieces (symbol :: text) = (pattern.pieces text).push symbol := by
  simp only [pieces, scan, silent]

theorem pieces_match {pattern : Pattern α} {entry rest : List α} (nonempty : entry ≠ [])
    (found : pattern.width (entry ++ rest) = some entry.length) :
    pattern.pieces (entry ++ rest) = (pattern.pieces rest).cut entry := by
  cases entry with
  | nil => exact absurd rfl nonempty
  | cons symbol taken =>
    simp only [List.cons_append] at found
    simp only [pieces, List.cons_append, scan, found]
    simp only [List.length_cons, Nat.add_sub_cancel, List.take_succ_cons, List.take_left]
    rw [scan_skip]
    rfl

def Silent (pattern : Pattern α) (after : List α) : List α → Prop
  | [] => True
  | symbol :: gap => pattern.width (symbol :: gap ++ after) = none ∧ pattern.Silent after gap

theorem silent_iff {pattern : Pattern α} {after gap : List α} :
    pattern.Silent after gap ↔
      ∀ before rest, gap = before ++ rest → rest ≠ [] → pattern.width (rest ++ after) = none := by
  induction gap with
  | nil =>
    simp only [Silent, true_iff]
    intro before rest same nonempty
    exact absurd (List.append_eq_nil_iff.mp same.symm).2 nonempty
  | cons symbol gap ih =>
    simp only [Silent, ih]
    constructor
    · rintro ⟨head, later⟩ before rest same nonempty
      cases before with
      | nil => rw [← (show symbol :: gap = rest from same)]; exact head
      | cons _ before => exact later before rest (List.cons.inj same).2 nonempty
    · intro silent
      exact ⟨silent [] (symbol :: gap) rfl (by simp),
        fun before rest same => silent (symbol :: before) rest (by rw [same]; rfl)⟩

/-- The cut a leftmost, non-overlapping search makes: each entry is the match at
its place, and no match begins in any gap. -/
def Leftmost (pattern : Pattern α) : List (List α × List α) → List α → Prop
  | [], tail => pattern.Silent [] tail
  | (gap, entry) :: found, tail =>
    let rest := Pieces.text ⟨found, tail⟩
    pattern.Silent (entry ++ rest) gap ∧ entry ≠ [] ∧ pattern.width (entry ++ rest) = some entry.length ∧
      pattern.Leftmost found tail

private theorem pieces_gap {pattern : Pattern α} {gap after : List α} (silent : pattern.Silent after gap) :
    pattern.pieces (gap ++ after) = gap.foldr Pieces.push (pattern.pieces after) := by
  induction gap with
  | nil => rfl
  | cons symbol gap ih =>
    have head : pattern.pieces (symbol :: (gap ++ after)) = (pattern.pieces (gap ++ after)).push symbol :=
      pieces_silent silent.1
    rw [List.cons_append, head, ih silent.2]
    rfl

private theorem foldr_push_nil (gap tail : List α) : gap.foldr Pieces.push ⟨[], tail⟩ = ⟨[], gap ++ tail⟩ := by
  induction gap with
  | nil => rfl
  | cons symbol gap ih => rw [List.foldr_cons, ih]; rfl

private theorem foldr_push_cons (gap entry : List α) (found : List (List α × List α)) (first tail : List α) :
    gap.foldr Pieces.push ⟨(first, entry) :: found, tail⟩ = ⟨(gap ++ first, entry) :: found, tail⟩ := by
  induction gap with
  | nil => rfl
  | cons symbol gap ih => rw [List.foldr_cons, ih]; rfl

/-- A leftmost cut is what the scan finds, so the scan is the only leftmost cut. -/
theorem Leftmost.pieces_eq {pattern : Pattern α} {cut : Pieces α} (leftmost : pattern.Leftmost cut.found cut.tail) :
    pattern.pieces cut.text = cut := by
  obtain ⟨found, tail⟩ := cut
  induction found with
  | nil =>
    have gap := pieces_gap (show pattern.Silent [] tail from leftmost)
    rw [List.append_nil] at gap
    rw [Pieces.text_nil, gap, pieces_nil, foldr_push_nil, List.append_nil]
  | cons piece found ih =>
    obtain ⟨gap, entry⟩ := piece
    obtain ⟨silent, nonempty, matched, rest⟩ := leftmost
    have later : pattern.pieces (Pieces.text ⟨found, tail⟩) = ⟨found, tail⟩ := ih rest
    rw [Pieces.text_cons, pieces_gap silent, pieces_match nonempty matched, later]
    simp only [Pieces.cut]
    rw [foldr_push_cons, List.append_nil]

theorem Leftmost.push {pattern : Pattern α} {symbol : α} {pieces : Pieces α}
    (leftmost : pattern.Leftmost pieces.found pieces.tail) (silent : pattern.width (symbol :: pieces.text) = none) :
    pattern.Leftmost (pieces.push symbol).found (pieces.push symbol).tail := by
  rcases pieces with ⟨_ | ⟨⟨gap, entry⟩, found⟩, tail⟩
  · rw [Pieces.text_nil] at silent
    exact ⟨by rw [List.append_nil]; exact silent, leftmost⟩
  · rw [Pieces.text_cons] at silent
    exact ⟨⟨silent, leftmost.1⟩, leftmost.2⟩

private theorem scan_spec (pattern : Pattern α) (text : List α) (skip : Nat) :
    (pattern.scan skip text).text = text.drop skip ∧
      pattern.Leftmost (pattern.scan skip text).found (pattern.scan skip text).tail := by
  induction text generalizing skip with
  | nil => cases skip <;> exact ⟨rfl, trivial⟩
  | cons symbol text ih =>
    cases skip with
    | succ skip => exact ih skip
    | zero =>
      simp only [scan]
      split
      next count found =>
        obtain ⟨word, rest, accepted, same, rfl⟩ := width_some found
        obtain ⟨head, taken, rfl⟩ := List.exists_cons_of_ne_nil accepted.nonempty
        rw [List.cons_append] at same
        obtain ⟨rfl, rfl⟩ := List.cons.inj same
        obtain ⟨joined, leftmost⟩ := ih taken.length
        rw [List.drop_left] at joined
        simp only [List.length_cons, Nat.add_sub_cancel, List.take_succ_cons, List.take_left,
          Pieces.cut, List.drop_zero]
        refine ⟨by rw [Pieces.text_cons, joined]; rfl, trivial, by simp, ?_, leftmost⟩
        rw [joined]
        exact found
      next silent =>
        obtain ⟨joined, leftmost⟩ := ih 0
        rw [List.drop_zero] at joined
        exact ⟨by rw [Pieces.push_text, joined]; rfl, leftmost.push (by rw [joined]; exact silent)⟩

theorem pieces_text (pattern : Pattern α) (text : List α) : (pattern.pieces text).text = text :=
  (scan_spec pattern text 0).1

theorem pieces_leftmost (pattern : Pattern α) (text : List α) :
    pattern.Leftmost (pattern.pieces text).found (pattern.pieces text).tail :=
  (scan_spec pattern text 0).2

theorem Leftmost.free {pattern : Pattern α} {found : List (List α × List α)} {tail : List α}
    (leftmost : pattern.Leftmost found tail) :
    ∀ gap ∈ Pieces.gaps ⟨found, tail⟩, ∀ word, word <:+: gap → ¬ pattern.Accepts word := by
  have clear : ∀ {gap after : List α}, pattern.Silent after gap →
      ∀ word, word <:+: gap → ¬ pattern.Accepts word := by
    rintro gap after silent word ⟨before, rest, rfl⟩ accepted
    have none := silent_iff.mp silent before (word ++ rest) (by simp) (by simp [accepted.nonempty])
    exact width_none.mp none word (rest ++ after) (by simp) accepted
  induction found with
  | nil =>
    intro gap member
    simp only [Pieces.gaps, List.map_nil, List.nil_append, List.mem_singleton] at member
    subst member
    exact clear leftmost
  | cons piece found ih =>
    obtain ⟨first, entry⟩ := piece
    intro gap member
    rcases List.mem_cons.mp member with rfl | later
    · exact clear leftmost.1
    · exact ih leftmost.2.2.2 gap later

theorem Leftmost.accepts {pattern : Pattern α} {found : List (List α × List α)} {tail : List α}
    (leftmost : pattern.Leftmost found tail) : ∀ entry ∈ Pieces.entries ⟨found, tail⟩, pattern.Accepts entry := by
  induction found with
  | nil => intro entry member; cases member
  | cons piece found ih =>
    obtain ⟨gap, first⟩ := piece
    obtain ⟨_, _, matched, rest⟩ := leftmost
    intro entry member
    rcases List.mem_cons.mp member with rfl | later
    · obtain ⟨word, after, accepted, same, length⟩ := width_some matched
      exact (List.append_inj same length).1 ▸ accepted
    · exact ih rest entry later

end Pattern

end SblPayload.Library
