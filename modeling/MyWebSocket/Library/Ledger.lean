import Mathlib.Data.Finset.Insert
import Mathlib.Data.Finset.Erase
import Mathlib.Data.Finset.Lattice.Basic
import Mathlib.Data.Finset.Disjoint

/-!
# A ledger of objects

A ledger keeps the objects of a heap that are live and those that have been released.  `new`
takes an object that has been neither, `delete` one that is live; any other operation is a fault
and has no ledger behind it.

* `Ledger.run` — the ledger behind a sequence of operations;
* `Ledger.Balanced ops known owed` — the operations are without fault, `known` objects have been made,
  and those still live are the ones `owed`;
* `Ledger.Balanced.new`, `Ledger.Balanced.delete` — what one more operation does to the balance;
* `ReleasedOnce ops awaited` — nothing stays that is not awaited, and what goes goes once;
  balanced operations do that.
-/

/-- An operation on the heap. -/
inductive HeapOp (ω : Type*)
  | new (x : ω)
  | delete (x : ω)
deriving DecidableEq, Repr

/-- The live objects and the released ones. -/
structure Ledger (ω : Type*) [DecidableEq ω] where
  live : Finset ω
  released : Finset ω
  disjoint : Disjoint live released

namespace Ledger

variable {ω : Type*} [DecidableEq ω]

def empty : Ledger ω := ⟨∅, ∅, Finset.disjoint_empty_left _⟩

/-- `x` becomes live. -/
def make (L : Ledger ω) (x : ω) (h : x ∉ L.released) : Ledger ω :=
  ⟨insert x L.live, L.released, Finset.disjoint_insert_left.mpr ⟨h, L.disjoint⟩⟩

/-- `x` is live no longer. -/
def release (L : Ledger ω) (x : ω) : Ledger ω :=
  ⟨L.live.erase x, insert x L.released, Finset.disjoint_insert_right.mpr
    ⟨Finset.notMem_erase x L.live, L.disjoint.mono_left (Finset.erase_subset x L.live)⟩⟩

@[simp] theorem make_live (L : Ledger ω) (x : ω) (h : x ∉ L.released) :
    (L.make x h).live = insert x L.live := rfl

@[simp] theorem make_released (L : Ledger ω) (x : ω) (h : x ∉ L.released) :
    (L.make x h).released = L.released := rfl

@[simp] theorem release_live (L : Ledger ω) (x : ω) : (L.release x).live = L.live.erase x := rfl

@[simp] theorem release_released (L : Ledger ω) (x : ω) :
    (L.release x).released = insert x L.released := rfl

/-- One operation. -/
def apply (L : Ledger ω) : HeapOp ω → Option (Ledger ω)
  | .new x =>
    if h : x ∉ L.live ∧ x ∉ L.released then some (L.make x h.2) else none
  | .delete x => if x ∈ L.live then some (L.release x) else none

/-- The ledger behind a sequence of operations, if none of them is a fault. -/
def run (ops : List (HeapOp ω)) : Option (Ledger ω) := ops.foldlM apply empty

@[simp] theorem run_nil : run ([] : List (HeapOp ω)) = some empty := rfl

theorem run_concat (ops : List (HeapOp ω)) (op : HeapOp ω) :
    run (ops ++ [op]) = (run ops).bind fun L => L.apply op := by
  rw [run, List.foldlM_append]
  cases h : ops.foldlM apply empty with
  | none => simp [run, h]
  | some L => simp [run, h]

end Ledger

/-! ### Balance -/

/-- The operations are without fault; `known` objects have been made and `owed` ones are live. -/
def Ledger.Balanced {ω : Type*} [DecidableEq ω] (ops : List (HeapOp ω)) (known owed : ω → Prop) : Prop :=
  ∃ L, Ledger.run ops = some L ∧ (∀ x, x ∈ L.live ↔ owed x) ∧
    ∀ x, x ∈ L.live ∨ x ∈ L.released ↔ known x

namespace Ledger.Balanced

variable {ω : Type*} [DecidableEq ω] {ops : List (HeapOp ω)} {known known' owed owed' : ω → Prop}

theorem nil (hknown : ∀ x, ¬ known x) (howed : ∀ x, ¬ owed x) : Balanced [] known owed := by
  refine ⟨.empty, rfl, fun x => ?_, fun x => ?_⟩
  · exact iff_of_false (Finset.notMem_empty x) (howed x)
  · refine iff_of_false ?_ (hknown x)
    rintro (h | h)
    · exact Finset.notMem_empty x h
    · exact Finset.notMem_empty x h

theorem congr (h : Balanced ops known owed) (hknown : ∀ x, known x ↔ known' x)
    (howed : ∀ x, owed x ↔ owed' x) : Balanced ops known' owed' := by
  obtain ⟨L, hrun, hlive, hall⟩ := h
  exact ⟨L, hrun, fun x => (hlive x).trans (howed x), fun x => (hall x).trans (hknown x)⟩

/-- Only known objects are owed. -/
theorem known_of_owed (h : Balanced ops known owed) {x : ω} (hx : owed x) : known x := by
  obtain ⟨L, -, hlive, hall⟩ := h
  exact (hall x).mp (.inl ((hlive x).mpr hx))

/-- An object that is not known can be made; it is owed from then on. -/
theorem new (h : Balanced ops known owed) {x : ω} (hx : ¬ known x) :
    Balanced (ops ++ [.new x]) (fun y => y = x ∨ known y) (fun y => y = x ∨ owed y) := by
  obtain ⟨L, hrun, hlive, hall⟩ := h
  have hfresh : x ∉ L.live ∧ x ∉ L.released :=
    ⟨fun hmem => hx ((hall x).mp (.inl hmem)), fun hmem => hx ((hall x).mp (.inr hmem))⟩
  refine ⟨L.make x hfresh.2, ?_, fun y => ?_, fun y => ?_⟩
  · rw [Ledger.run_concat, hrun]
    exact dif_pos hfresh
  · rw [Ledger.make_live, Finset.mem_insert, hlive]
  · rw [Ledger.make_live, Finset.mem_insert, Ledger.make_released, or_assoc, hall]

/-- An object that is owed can be deleted, and is owed no longer. -/
theorem delete (h : Balanced ops known owed) {x : ω} (hx : owed x) :
    Balanced (ops ++ [.delete x]) known (fun y => y ≠ x ∧ owed y) := by
  obtain ⟨L, hrun, hlive, hall⟩ := h
  have hmem : x ∈ L.live := (hlive x).mpr hx
  refine ⟨L.release x, ?_, fun y => ?_, fun y => ?_⟩
  · rw [Ledger.run_concat, hrun]
    exact if_pos hmem
  · rw [Ledger.release_live, Finset.mem_erase, hlive]
  · rw [← hall, Ledger.release_live, Finset.mem_erase, Ledger.release_released,
      Finset.mem_insert]
    -- `x` itself has only gone over to the released objects
    by_cases hyx : y = x
    · subst hyx
      simp [hmem]
    · simp [hyx]

end Ledger.Balanced

/-! ### Releasing once -/

namespace Ledger

variable {ω : Type*} [DecidableEq ω]

/-- The ledger knows what has been made, and how often each object has been deleted. -/
structure Counts (ops : List (HeapOp ω)) (L : Ledger ω) : Prop where
  made : ∀ x, .new x ∈ ops ↔ x ∈ L.live ∨ x ∈ L.released
  deleted : ∀ x, ops.count (.delete x) = if x ∈ L.released then 1 else 0

theorem Counts.apply {ops : List (HeapOp ω)} {L L' : Ledger ω} {op : HeapOp ω} (h : Counts ops L)
    (hop : L.apply op = some L') : Counts (ops ++ [op]) L' := by
  cases op with
  | new x =>
    obtain ⟨hfresh, hL⟩ := Option.dite_none_right_eq_some.mp hop
    obtain rfl : L.make x hfresh.2 = L' := Option.some.inj hL
    constructor
    · intro y
      rw [List.mem_append, h.made, make_live, Finset.mem_insert, make_released,
        List.mem_singleton, HeapOp.new.injEq]
      tauto
    · intro y
      rw [List.count_append, h.deleted, make_released]
      simp
  | delete x =>
    obtain ⟨hlive, hL⟩ := Option.ite_none_right_eq_some.mp hop
    obtain rfl : L.release x = L' := Option.some.inj hL
    constructor
    · intro y
      rw [List.mem_append, h.made, release_live, Finset.mem_erase, release_released,
        Finset.mem_insert]
      by_cases hyx : y = x
      · subst hyx
        simp [hlive]
      · simp [hyx]
    · intro y
      simp only [List.count_append, h.deleted, release_released, Finset.mem_insert]
      by_cases hyx : y = x
      · -- it was live, so it has not been deleted before
        subst hyx
        have hnot : y ∉ L.released := Finset.disjoint_left.mp L.disjoint hlive
        simp [hnot]
      · simp [hyx, Ne.symm hyx]

theorem counts_of_run {ops : List (HeapOp ω)} {L : Ledger ω} (h : run ops = some L) :
    Counts ops L := by
  induction ops using List.reverseRecOn generalizing L with
  | nil =>
    obtain rfl : empty = L := Option.some.inj h
    exact ⟨fun x => by simp [empty], fun x => by simp [empty]⟩
  | append_singleton ops op ih =>
    rw [run_concat, Option.bind_eq_some_iff] at h
    obtain ⟨K, hK, hop⟩ := h
    exact (ih hK).apply hop

end Ledger

/-- No operation is a fault, the live objects are those still awaited, and every object that has
    been made and is awaited no longer has been deleted exactly once. -/
structure ReleasedOnce {ω : Type*} [DecidableEq ω] (ops : List (HeapOp ω)) (awaited : ω → Prop) :
    Prop where
  live : ∃ L, Ledger.run ops = some L ∧ ∀ x, x ∈ L.live ↔ awaited x
  once : ∀ x, .new x ∈ ops → ¬ awaited x → ops.count (.delete x) = 1

/-- **Balanced operations release once.** -/
theorem Ledger.Balanced.releasedOnce {ω : Type*} [DecidableEq ω] {ops : List (HeapOp ω)}
    {known owed : ω → Prop} (h : Ledger.Balanced ops known owed) : ReleasedOnce ops owed := by
  obtain ⟨L, hrun, hlive, -⟩ := h
  refine ⟨⟨L, hrun, hlive⟩, fun x hnew hx => ?_⟩
  have hcounts := Ledger.counts_of_run hrun
  have hreleased : x ∈ L.released :=
    ((hcounts.made x).mp hnew).resolve_left fun hmem => hx ((hlive x).mp hmem)
  rw [hcounts.deleted, if_pos hreleased]

/-- A fault is never made good. -/
theorem not_releasedOnce {ω : Type*} [DecidableEq ω] {ops : List (HeapOp ω)}
    {awaited : ω → Prop} (h : Ledger.run ops = none) : ¬ ReleasedOnce ops awaited := by
  rintro ⟨⟨L, hrun, -⟩, -⟩
  rw [h] at hrun
  cases hrun
