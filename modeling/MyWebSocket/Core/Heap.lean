import Mathlib.Data.List.Basic
import MyWebSocket.Library.Ledger

namespace MyWebSocket

/-!
# The objects of a session

What the two send paths make with `new` and release with `delete`, and the books kept of it.
-/

/-! ### Numbered lists -/

section

variable {α : Type*} {p : α → Prop} {l : List α} {a b : α}

theorem exists_getElem?_concat (ha : p a) (j : Nat) :
    (∃ x ∈ (l ++ [a])[j]?, p x) ↔ j = l.length ∨ ∃ x ∈ l[j]?, p x := by
  rcases Nat.lt_trichotomy j l.length with hlt | rfl | hgt
  · rw [List.getElem?_append_left hlt, or_iff_right (Nat.ne_of_lt hlt)]
  · rw [List.getElem?_concat_length]
    exact iff_of_true ⟨a, rfl, ha⟩ (.inl rfl)
  · have hnone : l[j]? = none := List.getElem?_eq_none (Nat.le_of_lt hgt)
    have hnone' : (l ++ [a])[j]? = none := by
      rw [List.getElem?_eq_none_iff, List.length_append]
      exact hgt
    rw [hnone, hnone']
    simp [Nat.ne_of_gt hgt]

/-- An entry changes that has the property before and after. -/
theorem exists_getElem?_set {i : Nat} (hb : l[i]? = some b) (hiff : p a ↔ p b) (j : Nat) :
    (∃ x ∈ (l.set i a)[j]?, p x) ↔ ∃ x ∈ l[j]?, p x := by
  by_cases hij : i = j
  · subst hij
    have hlt : i < l.length := (List.getElem?_eq_some_iff.mp hb).1
    rw [List.getElem?_set_self hlt, hb]
    simpa using hiff
  · rw [List.getElem?_set_ne hij]

/-- An entry loses the property. -/
theorem exists_getElem?_set_of_not (ha : ¬ p a) (i j : Nat) :
    (∃ x ∈ (l.set i a)[j]?, p x) ↔ j ≠ i ∧ ∃ x ∈ l[j]?, p x := by
  by_cases hij : i = j
  · subst hij
    rw [List.getElem?_set_self']
    refine iff_of_false ?_ fun h => h.1 rfl
    rintro ⟨x, hx, hpx⟩
    obtain ⟨y, -, rfl⟩ := Option.map_eq_some_iff.mp hx
    exact ha hpx
  · rw [List.getElem?_set_ne hij]
    exact (and_iff_right (Ne.symm hij)).symm

end

/-! ### The books -/

/-- The objects of a session by their numbers: the contexts of its writes
    (`WsSession::WriteCtx`, `httpResp::WriteContext`) and its file readers. -/
inductive HeapObject
  | ctx (n : Nat)
  | reader (j : Nat)
deriving DecidableEq, Repr

/-- The objects made so far, when there are `contexts` and `readers` of them. -/
def HeapObject.Made (contexts readers : Nat) : HeapObject → Prop
  | .ctx n => n < contexts
  | .reader j => j < readers

/-- The operations are without fault, and `owed` are the objects still to be released. -/
abbrev Books (ops : List (HeapOp HeapObject)) (contexts readers : Nat)
    (owed : HeapObject → Prop) : Prop :=
  Ledger.Balanced ops (HeapObject.Made contexts readers) owed

namespace Books

variable {ops : List (HeapOp HeapObject)} {contexts readers : Nat}
  {owed owed' : HeapObject → Prop}

theorem nil (howed : ∀ x, ¬ owed x) : Books [] 0 0 owed := by
  refine Ledger.Balanced.nil (fun x => ?_) howed
  cases x with
  | ctx n => exact Nat.not_lt_zero n
  | reader j => exact Nat.not_lt_zero j

/-- The next context is made. -/
theorem newCtx (h : Books ops contexts readers owed)
    (howed : ∀ x, x = .ctx contexts ∨ owed x ↔ owed' x) :
    Books (ops ++ [.new (.ctx contexts)]) (contexts + 1) readers owed' := by
  have hfresh : ¬ HeapObject.Made contexts readers (.ctx contexts) := Nat.lt_irrefl contexts
  refine (Ledger.Balanced.new h hfresh).congr (fun x => ?_) howed
  cases x with
  | ctx n =>
    show HeapObject.ctx n = .ctx contexts ∨ n < contexts ↔ n < contexts + 1
    rw [HeapObject.ctx.injEq]
    omega
  | reader j => simp [HeapObject.Made]

/-- The next reader is made. -/
theorem newReader (h : Books ops contexts readers owed)
    (howed : ∀ x, x = .reader readers ∨ owed x ↔ owed' x) :
    Books (ops ++ [.new (.reader readers)]) contexts (readers + 1) owed' := by
  have hfresh : ¬ HeapObject.Made contexts readers (.reader readers) := Nat.lt_irrefl readers
  refine (Ledger.Balanced.new h hfresh).congr (fun x => ?_) howed
  cases x with
  | ctx n => simp [HeapObject.Made]
  | reader j =>
    show HeapObject.reader j = .reader readers ∨ j < readers ↔ j < readers + 1
    rw [HeapObject.reader.injEq]
    omega

/-- An object that is owed is released. -/
theorem release (h : Books ops contexts readers owed) {x : HeapObject} (hx : owed x)
    (howed : ∀ y, y ≠ x ∧ owed y ↔ owed' y) : Books (ops ++ [.delete x]) contexts readers owed' :=
  (h.delete hx).congr (fun _ => Iff.rfl) howed

end Books

end MyWebSocket
