import SblPayload.Proofs.GenhdrAgain

/-! The headers depend on which sources are listed, not on their order or on how often
one is listed: the fragments are kept by name. -/

namespace SblPayload.Proofs.GenhdrOrder
open Library Text Script Genhdr GenhdrStatus GenhdrLeftovers GenhdrConfined GenhdrAgain

variable {tools : Tools} {host : Host} {world : World}

/-- What the tools must do for a source with this text. -/
def Collectable (tools : Tools) (host : Host) (incs : List Text) (option src : Text) (text : Option Text) : Prop :=
  let invocation := preprocessing host (.source src) incs option text
  (tools.run 0 invocation).returncode = 0 ∧
    ∀ mode, (tools.run 0 (.split mode src (some (out tools invocation)))).returncode = 0

section Sources

variable (deterministic : Deterministic tools) (incs : List Text) (option : Text)
include deterministic

theorem succeeds_zero (invocation : Invocation) :
    Succeeds tools world invocation ↔ (tools.run 0 invocation).returncode = 0 := by
  unfold Succeeds
  rw [deterministic _ 0]

theorem collectsSource_collectable (src : Text) : CollectsSource tools host incs option src world ↔
    Collectable tools host incs option src (world.files (.source src)) := by
  simp only [CollectsSource, Collectable, Splits, succeeds_zero deterministic, World.split, World.preprocessed,
    World.place_files, World.after_files, World.write_files, ↓reduceIte, output_eq deterministic]
  apply and_congr_right
  intro _
  constructor
  · rintro ⟨qstr, module, rootPointer⟩ mode
    cases mode with
    | qstr => exact qstr
    | module => exact module
    | rootPointer => exact rootPointer
  · exact fun all => ⟨all .qstr, all .module, all .rootPointer⟩

omit deterministic in
theorem collectSource_source (src path : Text) :
    (world.collectSource tools host incs option src).files (.source path) = world.files (.source path) := by
  simp [World.collectSource, World.split, World.preprocessed]

theorem sources_collectable (sources : List Text) (start : World) :
    Leads.All (CollectsSource tools host incs option)
        (fun before src => before.collectSource tools host incs option src) sources start ↔
      ∀ src ∈ sources, Collectable tools host incs option src (start.files (.source src)) := by
  induction sources generalizing start with
  | nil => exact iff_of_true trivial (List.forall_mem_nil _)
  | cons src sources ih =>
    rw [Leads.All, ih, List.forall_mem_cons, collectsSource_collectable deterministic]
    simp only [collectSource_source]

end Sources

section Plans

variable (deterministic : Deterministic tools) (plan : Plan) (listed : List Text) (predefined : Text)
  (same : ∀ src, src ∈ plan.srcFiles ↔ src ∈ listed)
  (named : ∀ src ∈ plan.srcFiles, ∀ other ∈ plan.srcFiles, tools.fragmentName src = tools.fragmentName other → src = other)
include deterministic same named

/-- Once the sources are collected, the worlds differ in no file of `genhdr` and in no
fragment. -/
theorem sourced_alike : Alike (fun file => ∃ name, file = .genhdr name) (world.sourced tools host plan)
    (world.sourced tools host { plan with srcFiles := listed }) := by
  constructor
  · rintro file ⟨name, rfl⟩
    rw [World.sourced, World.sourced, sources_genhdr, sources_genhdr]
  · intro mode
    rw [World.sourced, World.sourced, sources_present deterministic, sources_present deterministic]
    apply Directory.fill_congr
    · intro first member second among equal
      obtain ⟨src, inside, rfl⟩ := List.mem_map.mp member
      obtain ⟨other, within, rfl⟩ := List.mem_map.mp among
      rw [named src inside other within equal]
    · intro entry
      simp only [List.mem_map, same]

theorem produces_listed (produces : Produces tools host world plan predefined) :
    Produces tools host world { plan with srcFiles := listed } predefined := by
  have none : plan.srcFiles = [] ↔ listed = [] := by simp only [List.eq_nil_iff_forall_not_mem, same]
  have there : Present { plan with srcFiles := listed } world :=
    (produces_present plan predefined produces).imp_left (not_congr none).mp
  have alike := @sourced_alike tools host world deterministic plan listed same named
  obtain ⟨version, all, _⟩ := id produces
  refine produces_from deterministic plan listed predefined alike ⟨version, ?_⟩ there produces
  rw [sources_collectable deterministic] at all ⊢
  exact fun src member => all src ((same src).mpr member)

end Plans

/-- The command lines are made one source at a time. -/
theorem spelled_listed (plan : Plan) (listed : List Text) (same : ∀ src, src ∈ plan.srcFiles ↔ src ∈ listed)
    (spelled : Spelled host (commands host plan)) : Spelled host (commands host { plan with srcFiles := listed }) := by
  unfold commands at spelled ⊢
  rw [spelled_append] at spelled ⊢
  refine ⟨fun command member => ?_, spelled.2⟩
  obtain ⟨src, inside, made⟩ := List.mem_flatMap.mp member
  exact spelled.1 command (List.mem_flatMap.mpr ⟨src, (same src).mpr inside, made⟩)

/-- Two INF files that differ in the order of the sources only, or in how often one is
listed, give the same headers: if one run completes, so does the other. -/
theorem headers_of_source_set (deterministic : Deterministic tools) {args others : Args} {found : Plan}
    {listed : List Text} (planned : plan host args = .ok found)
    (reordered : plan host others = .ok { found with srcFiles := listed })
    (same : ∀ src, src ∈ found.srcFiles ↔ src ∈ listed)
    (named : ∀ src ∈ found.srcFiles, ∀ other ∈ found.srcFiles, tools.fragmentName src = tools.fragmentName other → src = other)
    {one : World} (ended : (main tools host args).exec world = (.ok ⟨⟩, one)) :
    ∃ other, (main tools host others).exec world = (.ok ⟨⟩, other) ∧
      ∀ name, other.files (.genhdr name) = one.files (.genhdr name) := by
  obtain ⟨found', predefined, planned', read, spelled, produces, rfl⟩ := main_ended ended
  obtain rfl : found' = found := Except.ok.inj (planned'.symm.trans planned)
  have leads := (@produce_leads tools host world { found' with srcFiles := listed } predefined read).exec_eq
    ⟨spelled_listed found' listed same spelled,
      produces_listed deterministic found' listed predefined same named produces⟩
  have alike := produced_from deterministic found' listed predefined
    (@sourced_alike tools host world deterministic found' listed same named)
  refine ⟨_, main_exec reordered ▸ leads, fun name => ?_⟩
  exact (alike.files (.genhdr name) (Or.inr ⟨name, rfl⟩)).symm

/-- Two INF files in one folder. -/
def twoListings : Host where
  os := Posix.os
  PACKAGES_PATH := some "/w".toList
  WORKSPACE := none
  abspath := id
  pathExists := fun _ => true
  readText := fun path => some (if path = "/w/M.inf".toList then "[Sources]\na.c\nb.c\n".toList
    else if path = "/w/N.inf".toList then "[Sources]\nb.c\na.c\nb.c\n".toList else [])

def inOrder : Plan := ⟨"/w".toList, ["/w/a.c".toList, "/w/b.c".toList], ["/w".toList], "-DNO_QSTR".toList⟩

def turned : List Text := ["/w/b.c".toList, "/w/a.c".toList, "/w/b.c".toList]

theorem turned_same (src : Text) : src ∈ inOrder.srcFiles ↔ src ∈ turned := by
  simp only [inOrder, turned, List.mem_cons, List.not_mem_nil, or_false]
  constructor
  · rintro (first | second)
    · exact Or.inr (Or.inl first)
    · exact Or.inl second
  · rintro (second | first | second)
    · exact Or.inr second
    · exact Or.inl first
    · exact Or.inr second

def inOrderRun : Except PyError PUnit × World :=
  (main (copying Directory.entries id id) twoListings ⟨"/w/M.inf".toList, "X64".toList⟩).exec (clean.start fun _ => none)

theorem inOrderRun_ends : inOrderRun = (.ok ⟨⟩, inOrderRun.2) := by
  have ended : inOrderRun.1 = .ok ⟨⟩ := by decide +kernel
  rw [← ended]

/-- The sources the other way round, and one of them twice. -/
theorem turned_headers : ∃ other,
    (main (copying Directory.entries id id) twoListings ⟨"/w/N.inf".toList, "X64".toList⟩).exec
      (clean.start fun _ => none) = (.ok ⟨⟩, other) ∧
      ∀ name, other.files (.genhdr name) = inOrderRun.2.files (.genhdr name) := by
  have planned : plan twoListings ⟨"/w/M.inf".toList, "X64".toList⟩ = .ok inOrder := by decide +kernel
  have reordered : plan twoListings ⟨"/w/N.inf".toList, "X64".toList⟩ = .ok { inOrder with srcFiles := turned } := by
    decide +kernel
  exact headers_of_source_set (fun _ _ _ => rfl) planned reordered turned_same (fun _ _ _ _ equal => equal) inOrderRun_ends

end SblPayload.Proofs.GenhdrOrder
