import SblPayload.MicroPython.CString

/-! The C library as the interpreter understands it, against the shim. -/

namespace SblPayload.Proofs.CLibrary
open MicroPython

def FirstAt (holds : Nat → Prop) (position : Nat) : Prop :=
  holds position ∧ ∀ earlier < position, ¬ holds earlier

/-- The `n` bytes at `dst` have the given values, and no other byte has changed. -/
structure Written {arch : Arch} (before after : Bytes arch) (dst n : Word arch) (value : Word arch → Byte) : Prop where
  inside : ∀ offset < n, after (dst + offset) = value offset
  outside : ∀ address, n ≤ address - dst → after address = before address

/-- A buffer does not run over the end of the address space. -/
def Fits {arch : Arch} (address n : Word arch) : Prop := address.toNat + n.toNat ≤ 2 ^ arch.bits

/-- What the headers of the firmware library say of its routines. -/
structure Documented {arch : Arch} (lib : BaseLib arch) : Prop where
  empty : ∀ s pattern, pattern.chars = [] → lib.asciiStrStr s pattern = some 0
  search : ∀ s pattern, pattern.chars ≠ [] → ∀ position,
    lib.asciiStrStr s pattern = some position ↔ FirstAt (fun start => pattern.chars <+: s.chars.drop start) position
  copy : ∀ memory dst src n, Fits dst n → Fits src n →
    Written memory (lib.copyMem memory dst src n) dst n fun offset => memory (src + offset)
  fill : ∀ memory dst n value, Fits dst n → Written memory (lib.setMem memory dst n value) dst n fun _ => value

inductive Call (arch : Arch) where
  | strchr (s : CString) (c : BitVec 32)
  | memcpy (memory : Bytes arch) (dst src n : Word arch)
  | memmove (memory : Bytes arch) (dst src n : Word arch)
  | memset (memory : Bytes arch) (s : Word arch) (c : BitVec 32) (n : Word arch)

/-- The function has a result, and it is the destination. -/
structure Delivers {arch : Arch} (effect : Effect arch) (before : Bytes arch) (dst n : Word arch)
    (value : Word arch → Byte) : Prop where
  result : effect.result = some dst
  memory : Written before effect.memory dst n value

section
variable {arch : Arch} (lib : BaseLib arch)

/-- The terminator is a character of the string. -/
def Meets : Call arch → Prop
  | .strchr s c => ∀ position, strchr lib s c = some position ↔
    FirstAt (fun index => (s.chars ++ [0])[index]? = some (c.setWidth 8)) position
  | .memcpy memory dst src n => Delivers (memcpy lib memory dst src n) memory dst n fun offset => memory (src + offset)
  | .memmove memory dst src n => Delivers (memmove lib memory dst src n) memory dst n fun offset => memory (src + offset)
  | .memset memory s c n => Delivers (memset lib memory s c n) memory s n fun _ => c.setWidth 8

end

/-- A search for a character that is not NUL, or in a string without characters. -/
def Searchable {arch : Arch} : Call arch → Prop
  | .strchr s c => c.setWidth 8 ≠ (0 : Byte) ∨ s.chars = []
  | .memcpy .. => False
  | .memmove .. => False
  | .memset .. => False

theorem ofArray_char {char : Byte} (visible : char ≠ 0) : (CString.ofArray [char, 0]).chars = [char] := by
  change List.takeWhile (fun byte => decide (byte ≠ 0)) [char, 0] = [char]
  rw [List.takeWhile_cons, decide_eq_true visible]
  rfl

theorem ofArray_nul : (CString.ofArray [0, 0]).chars = [] := rfl

/-- A substring of one character is that character, and never the terminator. -/
theorem prefix_char_iff (s : CString) {char : Byte} (visible : char ≠ 0) (start : Nat) :
    [char] <+: s.chars.drop start ↔ (s.chars ++ [0])[start]? = some char := by
  have drops : [char] <+: s.chars.drop start ↔ s.chars[start]? = some char := by
    rw [← List.head?_drop, List.head?_eq_some_iff]
    constructor
    · intro found
      obtain ⟨rest, same⟩ := found
      exact ⟨rest, same.symm⟩
    · intro found
      obtain ⟨rest, same⟩ := found
      exact ⟨rest, same.symm⟩
  rw [drops]
  by_cases inside : start < s.chars.length
  · rw [List.getElem?_append_left inside]
  · have none : s.chars[start]? = none := List.getElem?_eq_none (by omega)
    rw [none, List.getElem?_append_right (by omega)]
    have terminator : ([0] : List Byte)[start - s.chars.length]? ≠ some char := by
      intro found
      have zero := List.mem_singleton.mp (List.mem_of_getElem? found)
      exact visible zero
    exact iff_of_false (by simp) terminator

theorem terminator_first (s : CString) (position : Nat) :
    FirstAt (fun index => (s.chars ++ [0])[index]? = some 0) position ↔ position = s.chars.length := by
  have atEnd : (s.chars ++ [0])[s.chars.length]? = some (0 : Byte) := by simp
  have before : ∀ index < s.chars.length, (s.chars ++ [0])[index]? ≠ some (0 : Byte) := by
    intro index inside found
    rw [List.getElem?_append_left inside] at found
    exact s.terminated (List.mem_of_getElem? found)
  constructor
  · intro first
    obtain ⟨found, none⟩ := first
    apply Nat.le_antisymm
    · apply Nat.le_of_not_lt
      intro past
      exact none _ past atEnd
    · apply Nat.le_of_not_lt
      intro inside
      exact before _ inside found
  · intro same
    rw [same]
    exact ⟨atEnd, before⟩

section
variable {arch : Arch} {lib : BaseLib arch}

/-- Another character than NUL is looked for as the pattern it makes. -/
theorem strchr_char (documented : Documented lib) (s : CString) {c : BitVec 32} (visible : c.setWidth 8 ≠ (0 : Byte)) :
    Meets lib (.strchr s c) := by
  intro position
  have pattern := ofArray_char visible
  rw [strchr, documented.search _ _ (by rw [pattern]; exact List.cons_ne_nil _ _), pattern]
  unfold FirstAt
  simp only [prefix_char_iff s visible]

/-- NUL makes an empty pattern, which is found where the search starts. -/
theorem strchr_nul (documented : Documented lib) (s : CString) {c : BitVec 32} (nul : c.setWidth 8 = (0 : Byte)) :
    Meets lib (.strchr s c) ↔ s.chars = [] := by
  have found : strchr lib s c = some 0 := by
    rw [strchr, nul]
    exact documented.empty _ _ ofArray_nul
  rw [Meets, found, nul]
  simp only [terminator_first, Option.some.injEq]
  constructor
  · intro meets
    exact List.eq_nil_of_length_eq_zero ((meets 0).mp rfl).symm
  · intro none position
    rw [none, List.length_nil]
    exact eq_comm

/-- The bytes are moved and filled as they should be; only the result is missing. -/
theorem copies_written (documented : Documented lib) (memory : Bytes arch) {dst src n : Word arch} (target : Fits dst n)
    (source : Fits src n) :
    Written memory (memcpy lib memory dst src n).memory dst n (fun offset => memory (src + offset)) ∧
      Written memory (memmove lib memory dst src n).memory dst n fun offset => memory (src + offset) :=
  ⟨documented.copy memory dst src n target source, documented.copy memory dst src n target source⟩

theorem fill_written (documented : Documented lib) (memory : Bytes arch) {s n : Word arch} (c : BitVec 32)
    (target : Fits s n) : Written memory (memset lib memory s c n).memory s n fun _ => c.setWidth 8 :=
  documented.fill memory s n (c.setWidth 8) target

theorem not_delivers {effect : Effect arch} (undefined : effect.result = none) {before : Bytes arch} {dst n : Word arch}
    {value : Word arch → Byte} : ¬ Delivers effect before dst n value := by
  intro delivers
  rw [delivers.result] at undefined
  cases undefined

theorem shim_meets_iff (documented : Documented lib) (call : Call arch) : Meets lib call ↔ Searchable call := by
  cases call with
  | strchr s c =>
    by_cases nul : c.setWidth 8 = (0 : Byte)
    · rw [strchr_nul documented s nul, Searchable]
      simp [nul]
    · exact iff_of_true (strchr_char documented s nul) (Or.inl nul)
  | memcpy memory dst src n => exact iff_of_false (not_delivers rfl) id
  | memmove memory dst src n => exact iff_of_false (not_delivers rfl) id
  | memset memory s c n => exact iff_of_false (not_delivers rfl) id

end

section

/-- A firmware library with the documented behaviour. -/
def plainLib (arch : Arch) : BaseLib arch where
  asciiStrStr s pattern :=
    if pattern.chars = [] then some 0
    else (List.range s.chars.length).find? fun start => pattern.chars.isPrefixOf (s.chars.drop start)
  copyMem memory dst src n := fun address => if address - dst < n then memory (src + (address - dst)) else memory address
  setMem memory dst n value := fun address => if address - dst < n then value else memory address

theorem plain_search (s pattern : CString) (nonempty : pattern.chars ≠ []) (position : Nat) :
    (List.range s.chars.length).find? (fun start => pattern.chars.isPrefixOf (s.chars.drop start)) = some position ↔
      FirstAt (fun start => pattern.chars <+: s.chars.drop start) position := by
  have inside : pattern.chars <+: s.chars.drop position → position < s.chars.length := by
    intro found
    apply Nat.lt_of_not_le
    intro past
    rw [List.drop_eq_nil_of_le past] at found
    exact nonempty (List.prefix_nil.mp found)
  rw [List.find?_range_eq_some]
  simp only [List.isPrefixOf_iff_prefix, List.mem_range, Bool.not_eq_true', ← Bool.not_eq_true]
  constructor
  · intro found
    exact ⟨found.1, found.2.2⟩
  · intro first
    exact ⟨first.1, inside first.1, first.2⟩

theorem written_below {arch : Arch} (before : Bytes arch) (dst n : Word arch) (value : Word arch → Byte) :
    Written before (fun address => if address - dst < n then value (address - dst) else before address) dst n value where
  inside offset below := by
    rw [add_sub_cancel_left, if_pos below]
  outside address past := if_neg (BitVec.not_lt.mpr past)

theorem plain_documented (arch : Arch) : Documented (plainLib arch) where
  empty _ _ none := if_pos none
  search s pattern nonempty position := by
    have searched : (plainLib arch).asciiStrStr s pattern = _ := if_neg nonempty
    rw [searched]
    exact plain_search s pattern nonempty position
  copy memory dst src n _ _ := written_below memory dst n fun offset => memory (src + offset)
  fill memory dst n value _ := written_below memory dst n fun _ => value

def letter : CString := ⟨[97], by decide⟩

theorem shim_finds_letter : Meets (plainLib .x64) (.strchr letter 97) :=
  (shim_meets_iff (plain_documented .x64) (.strchr letter 97)).mpr (Or.inl (by decide))

/-- The terminator of a string is looked for, and a byte is filled. -/
theorem terminator_missed : Documented (plainLib .x64) ∧ ¬ Meets (plainLib .x64) (.strchr letter 0) ∧
    ¬ Meets (plainLib .x64) (.memset (fun _ => 0) 4096 32 1) := by
  refine ⟨plain_documented .x64, ?_, not_delivers rfl⟩
  intro meets
  have empty := (strchr_nul (plain_documented .x64) letter rfl).mp meets
  cases empty

end

end SblPayload.Proofs.CLibrary
