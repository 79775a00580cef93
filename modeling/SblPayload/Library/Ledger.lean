import Mathlib.Data.Multiset.AddSub

/-! Accounts of resources that are obtained and given back. What is held is what
has been obtained and not yet given back, as long as nothing is given back that
is not held. -/

namespace SblPayload.Library

structure Ledger (ρ : Type) where
  held : Multiset ρ
  obtained : Multiset ρ
  released : Multiset ρ

namespace Ledger

variable {ρ : Type}

def empty : Ledger ρ := ⟨0, 0, 0⟩

def obtain (ledger : Ledger ρ) (resource : ρ) : Ledger ρ :=
  { ledger with held := resource ::ₘ ledger.held, obtained := resource ::ₘ ledger.obtained }

def release [DecidableEq ρ] (ledger : Ledger ρ) (resource : ρ) : Ledger ρ :=
  { ledger with held := ledger.held.erase resource, released := resource ::ₘ ledger.released }

def Conserved (ledger : Ledger ρ) : Prop := ledger.obtained = ledger.released + ledger.held

@[simp] theorem obtain_held (ledger : Ledger ρ) (resource : ρ) :
    (ledger.obtain resource).held = resource ::ₘ ledger.held := rfl

@[simp] theorem release_held [DecidableEq ρ] (ledger : Ledger ρ) (resource : ρ) :
    (ledger.release resource).held = ledger.held.erase resource := rfl

theorem conserved_empty : (empty : Ledger ρ).Conserved := (Multiset.add_zero 0).symm

theorem Conserved.obtain {ledger : Ledger ρ} (conserved : ledger.Conserved) (resource : ρ) :
    (ledger.obtain resource).Conserved := by
  unfold Conserved at conserved
  change resource ::ₘ ledger.obtained = ledger.released + (resource ::ₘ ledger.held)
  rw [conserved, Multiset.add_cons]

theorem Conserved.release [DecidableEq ρ] {ledger : Ledger ρ} (conserved : ledger.Conserved) {resource : ρ}
    (member : resource ∈ ledger.held) : (ledger.release resource).Conserved := by
  unfold Conserved at conserved
  change ledger.obtained = (resource ::ₘ ledger.released) + ledger.held.erase resource
  rw [conserved, Multiset.cons_add, ← Multiset.add_cons, Multiset.cons_erase member]

/-- When nothing is held any more, everything was given back, once. -/
theorem Conserved.settled {ledger : Ledger ρ} (conserved : ledger.Conserved) (none : ledger.held = 0) :
    ledger.released = ledger.obtained := by
  unfold Conserved at conserved
  rw [conserved, none, Multiset.add_zero]

theorem obtain_release [DecidableEq ρ] (ledger : Ledger ρ) (resource : ρ) :
    ((ledger.obtain resource).release resource).held = ledger.held := Multiset.erase_cons_head resource ledger.held

theorem held_ne_of_obtain (ledger : Ledger ρ) (resource : ρ) : ledger.held ≠ (ledger.obtain resource).held := by
  intro same
  have counts := congrArg Multiset.card same
  simp at counts

/-- One line of an account. -/
inductive Entry (ρ : Type) where
  | obtained (resource : ρ)
  | released (resource : ρ)
deriving DecidableEq

variable [DecidableEq ρ]

def enter (ledger : Ledger ρ) : Entry ρ → Ledger ρ
  | .obtained resource => ledger.obtain resource
  | .released resource => ledger.release resource

def post (ledger : Ledger ρ) (entries : List (Entry ρ)) : Ledger ρ := entries.foldl enter ledger

/-- Whatever is given back is held at that time. -/
def Covered : Ledger ρ → List (Entry ρ) → Prop
  | _, [] => True
  | ledger, .obtained resource :: rest => (ledger.obtain resource).Covered rest
  | ledger, .released resource :: rest => resource ∈ ledger.held ∧ (ledger.release resource).Covered rest

theorem post_append (ledger : Ledger ρ) (front rest : List (Entry ρ)) :
    ledger.post (front ++ rest) = (ledger.post front).post rest := List.foldl_append

theorem covered_append {ledger : Ledger ρ} {front rest : List (Entry ρ)} :
    ledger.Covered (front ++ rest) ↔ ledger.Covered front ∧ (ledger.post front).Covered rest := by
  induction front generalizing ledger with
  | nil => exact (and_iff_right trivial).symm
  | cons entry front ih =>
    cases entry with
    | obtained resource => exact ih
    | released resource =>
      change _ ∧ Covered (ledger.release resource) (front ++ rest) ↔ (_ ∧ _) ∧ _
      rw [ih, and_assoc]
      rfl

theorem Covered.conserved {ledger : Ledger ρ} {entries : List (Entry ρ)} (covered : ledger.Covered entries)
    (conserved : ledger.Conserved) : (ledger.post entries).Conserved := by
  induction entries generalizing ledger with
  | nil => exact conserved
  | cons entry rest ih =>
    cases entry with
    | obtained resource => exact ih covered (conserved.obtain resource)
    | released resource => exact ih covered.2 (conserved.release covered.1)

end Ledger

end SblPayload.Library
