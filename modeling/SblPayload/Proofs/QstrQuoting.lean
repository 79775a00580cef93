import SblPayload.Genhdr.Qstr

/-! Quoting protects the qstr entries from the preprocessor and nothing else is
changed by taking the quotes off again, whatever stands around the entries. -/

namespace SblPayload.Proofs.QstrQuoting
open Library Genhdr

theorem qstrEntry_accepts {word : Text} :
    qstrEntry.Accepts word ↔
      ∃ inner, inner ≠ [] ∧ (∀ char ∈ inner, outsideParens char = true) ∧ word = 'Q' :: '(' :: (inner ++ [')']) := by
  constructor
  · rintro ⟨_, _, ⟨_, first, rfl⟩, ⟨_, _, ⟨_, second, rfl⟩, ⟨inner, _, ⟨nonempty, all⟩, ⟨_, last, rfl⟩, rfl⟩, rfl⟩, rfl⟩
    rw [beq_iff_eq] at first second last
    subst first second last
    exact ⟨inner, nonempty, all, rfl⟩
  · rintro ⟨inner, nonempty, all, rfl⟩
    exact ⟨['Q'], _, ⟨'Q', rfl, rfl⟩, ⟨['('], _, ⟨'(', rfl, rfl⟩, ⟨inner, _, ⟨nonempty, all⟩, ⟨')', rfl, rfl⟩, rfl⟩, rfl⟩, rfl⟩

theorem quotedEntry_accepts {word : Text} :
    quotedEntry.Accepts word ↔ ∃ entry, qstrEntry.Accepts entry ∧ word = quote entry := by
  constructor
  · rintro ⟨_, _, ⟨_, first, rfl⟩, ⟨entry, _, accepted, ⟨_, last, rfl⟩, rfl⟩, rfl⟩
    rw [beq_iff_eq] at first last
    subst first last
    exact ⟨entry, accepted, rfl⟩
  · rintro ⟨entry, accepted, rfl⟩
    exact ⟨['"'], _, ⟨'"', rfl, rfl⟩, ⟨entry, _, accepted, ⟨'"', rfl, rfl⟩, rfl⟩, rfl⟩

private theorem paren_ends_inner {inner : Text} (all : ∀ char ∈ inner, outsideParens char = true) (after : Text) :
    (inner ++ ')' :: after).takeWhile outsideParens = inner := by
  rw [List.takeWhile_append_of_pos all, List.takeWhile_cons_of_neg (by decide), List.append_nil]

theorem qstrEntry_unambiguous : qstrEntry.Unambiguous := by
  intro left right after other leftWord rightWord same
  obtain ⟨first, _, firstAll, rfl⟩ := qstrEntry_accepts.mp leftWord
  obtain ⟨second, _, secondAll, rfl⟩ := qstrEntry_accepts.mp rightWord
  have inside : first ++ ')' :: after = second ++ ')' :: other := by simpa using same
  have equal := congrArg (List.takeWhile outsideParens) inside
  rw [paren_ends_inner firstAll, paren_ends_inner secondAll] at equal
  rw [equal]

theorem quotedEntry_unambiguous : quotedEntry.Unambiguous := by
  intro left right after other leftWord rightWord same
  obtain ⟨first, firstWord, rfl⟩ := quotedEntry_accepts.mp leftWord
  obtain ⟨second, secondWord, rfl⟩ := quotedEntry_accepts.mp rightWord
  have inside : first ++ '"' :: after = second ++ '"' :: other := by simpa [quote] using same
  rw [qstrEntry_unambiguous first second _ _ firstWord secondWord inside]

theorem unquote_quote (entry : Text) : unquote (quote entry) = entry := by
  simp [unquote, quote]

def EntryFree (text : Text) : Prop := ∀ word, word <:+: text → ¬ qstrEntry.Accepts word

/-- An entry has its only opening parenthesis right after its first character, so
it cannot run into the opening quote of another entry. -/
private theorem entry_no_quoted_head {head tail : Text} : ¬ qstrEntry.Accepts (head ++ '"' :: 'Q' :: '(' :: tail) := by
  intro accepted
  obtain ⟨inner, _, all, same⟩ := qstrEntry_accepts.mp accepted
  rcases head with _ | ⟨first, _ | ⟨second, head⟩⟩
  · simp at same
  · simp at same
  · simp only [List.cons_append, List.cons.injEq] at same
    have opening : '(' ∈ inner ++ [')'] := by rw [← same.2.2]; simp
    rcases List.mem_append.mp opening with inside | last
    · exact absurd (all _ inside) (by decide)
    · exact absurd (List.mem_singleton.mp last) (by decide)

private theorem entry_last {head last : Text} (accepted : qstrEntry.Accepts (head ++ last)) (nonempty : last ≠ []) :
    last.getLast? = some ')' := by
  obtain ⟨inner, _, _, same⟩ := qstrEntry_accepts.mp accepted
  have whole := congrArg List.getLast? (same.trans (List.append_assoc ['Q', '('] inner [')']).symm)
  rw [List.getLast?_append_of_ne_nil _ nonempty, List.getLast?_concat] at whole
  exact whole

/-- A quoted entry that begins in the gap would need its entry there too: it can
neither end at the quote put before the next entry nor reach past it. -/
theorem gap_silent {gap after : Text} (free : EntryFree gap)
    (opened : after = [] ∨ ∃ rest, after = '"' :: 'Q' :: '(' :: rest) : quotedEntry.Silent after gap := by
  apply Pattern.silent_iff.mpr
  rintro before rest rfl nonempty
  apply Pattern.width_none.mpr
  intro word later same accepted
  obtain ⟨entry, entryWord, rfl⟩ := quotedEntry_accepts.mp accepted
  obtain ⟨first, rest, rfl⟩ := List.exists_cons_of_ne_nil nonempty
  simp only [quote, List.cons_append, List.append_assoc, List.nil_append, List.cons.injEq] at same
  obtain ⟨rfl, same⟩ := same
  rcases List.append_eq_append_iff.mp same with ⟨beyond, rfl, reached⟩ | ⟨beyond, rfl, _⟩
  · by_cases empty : beyond = []
    · subst empty
      exact free rest ⟨before ++ ['"'], [], by simp⟩ (by simpa using entryWord)
    · have last := entry_last entryWord empty
      rcases opened with rfl | ⟨more, rfl⟩
      · simp at reached
      · rcases beyond with _ | ⟨a, _ | ⟨b, _ | ⟨c, beyond⟩⟩⟩
        · exact empty rfl
        · simp_all
        · simp_all
        · simp only [List.cons_append, List.cons.injEq] at reached
          obtain ⟨rfl, rfl, rfl, _⟩ := reached
          exact entry_no_quoted_head entryWord
  · exact free entry ⟨before ++ ['"'], beyond, by simp⟩ entryWord

private theorem quoted_opens {entry : Text} (accepted : qstrEntry.Accepts entry) (after : Text) :
    ∃ rest, quote entry ++ after = '"' :: 'Q' :: '(' :: rest := by
  obtain ⟨inner, _, _, rfl⟩ := qstrEntry_accepts.mp accepted
  exact ⟨_, rfl⟩

/-- Around entry-free gaps the inserted quotes are the only ones the second scan
takes, in order and one pair for each entry. -/
theorem quoted_leftmost {pieces : Pieces Char} (entries : ∀ entry ∈ pieces.entries, qstrEntry.Accepts entry)
    (free : ∀ gap ∈ pieces.gaps, EntryFree gap) :
    quotedEntry.Leftmost (pieces.map quote).found (pieces.map quote).tail := by
  obtain ⟨found, tail⟩ := pieces
  induction found with
  | nil => exact gap_silent (free tail (by simp [Pieces.gaps])) (Or.inl rfl)
  | cons piece found ih =>
    obtain ⟨gap, entry⟩ := piece
    have accepted := entries entry (by simp [Pieces.entries])
    have quoted : quotedEntry.Accepts (quote entry) := quotedEntry_accepts.mpr ⟨entry, accepted, rfl⟩
    refine ⟨gap_silent (free gap (by simp [Pieces.gaps])) (Or.inr (quoted_opens accepted _)), quoted.nonempty,
      quotedEntry_unambiguous.width quoted _, ih ?_ ?_⟩
    · exact fun other member => entries other (List.mem_cons_of_mem _ member)
    · exact fun other member => free other (List.mem_cons_of_mem _ member)

theorem unquote_render {pieces : Pieces Char} (entries : ∀ entry ∈ pieces.entries, qstrEntry.Accepts entry)
    (free : ∀ gap ∈ pieces.gaps, EntryFree gap) : unquoteEntries (pieces.render quote) = pieces.text := by
  have found : quotedEntry.pieces (pieces.render quote) = pieces.map quote := by
    rw [← Pieces.map_text]
    exact (quoted_leftmost entries free).pieces_eq
  unfold unquoteEntries Pattern.sub
  rw [found, Pieces.render_map]
  exact congrArg (Pieces.render · pieces) (funext unquote_quote)

/-- For a preprocessor that keeps the quoted entries and their order, and writes
whatever it likes around them short of a new entry, the second substitution
restores exactly the entries the first one found. -/
theorem quoting_keeps_every_entry (content : Text) :
    (qstrEntry.pieces content).text = content ∧
    qstrEntry.Leftmost (qstrEntry.pieces content).found (qstrEntry.pieces content).tail ∧
    quoteEntries content = (qstrEntry.pieces content).render quote ∧
    (∀ out : Pieces Char, out.entries = (qstrEntry.pieces content).entries → (∀ gap ∈ out.gaps, EntryFree gap) →
      unquoteEntries (out.render quote) = out.text) ∧
    unquoteEntries (quoteEntries content) = content := by
  have leftmost := Pattern.pieces_leftmost qstrEntry content
  have joined := Pattern.pieces_text qstrEntry content
  refine ⟨joined, leftmost, rfl, ?_, ?_⟩
  · intro out kept free
    exact unquote_render (fun entry member => leftmost.accepts entry (kept ▸ member)) free
  · have restored := unquote_render leftmost.accepts leftmost.free
    rw [joined] at restored
    exact restored

theorem entryFree_of_no_paren {text : Text} (none : '(' ∉ text) : EntryFree text := by
  intro word inside accepted
  obtain ⟨inner, _, _, rfl⟩ := qstrEntry_accepts.mp accepted
  exact none (inside.subset (by simp))

/-- Quotes of the preprocessor's own, right beside the entries, do no harm. -/
theorem quoting_keeps_entries_between_quotes :
    unquoteEntries "\"\"Q(a)\"\" x \"Q(b)\"\"".toList = "\"Q(a)\" x Q(b)\"".toList :=
  (quoting_keeps_every_entry "Q(a)Q(b)".toList).2.2.2.1
    ⟨[("\"".toList, "Q(a)".toList), ("\" x ".toList, "Q(b)".toList)], "\"".toList⟩ (by decide)
    (fun gap member => entryFree_of_no_paren (by
      revert gap
      decide))

end SblPayload.Proofs.QstrQuoting
