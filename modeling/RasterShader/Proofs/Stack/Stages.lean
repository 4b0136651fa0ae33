import Mathlib
import RasterShader.Proofs.Stack.Machine

/-!
# Stages that replace a window of slots

Stages that work on the top of a stack read the words of a window of slots and replace a window by
the results.  Each of them is an `overwrite` with a list of words computed from the words that were
there before: the loops over slots in `Machine.apply` never read a slot after they have written it,
as long as the windows they read and write do not overlap otherwise.
-/

namespace RasterShader
namespace Machine

variable {lanes : Nat} (batch : Batch lanes)

/-! ## Words from elsewhere -/

theorem fill_eq_overwrite (m : Machine lanes) (t n : Nat) (f : Nat → Vector UInt32 lanes) :
    m.fill t n f = m.overwrite t ((List.range n).map f) := by
  rw [fill, forEach_setSlot m t n (fun i _ => f i) (fun _ _ => rfl)]

theorem apply_splat (m : Machine lanes) (t n : Nat) (bits : UInt32) :
    m.apply batch (.splat t n bits) =
      m.overwrite t (List.replicate n (Vector.replicate lanes bits)) := by
  rw [apply, fill_eq_overwrite]
  simp [List.map_const']

theorem apply_copyUniform (m : Machine lanes) (t s n : Nat) :
    m.apply batch (.copyUniform t s n) =
      m.overwrite t ((List.range n).map fun i =>
        Vector.ofFn fun lane => m.read batch .uniform (s + i) lane) := by
  rw [apply, fill_eq_overwrite]
  congr 2
  funext i
  ext
  simp [read]

theorem apply_copyImmutable (m : Machine lanes) (t s n : Nat) :
    m.apply batch (.copyImmutable t s n) =
      m.overwrite t ((List.range n).map fun i =>
        Vector.ofFn fun lane => m.read batch .immutable (s + i) lane) := by
  rw [apply, fill_eq_overwrite]
  congr 2
  funext i
  ext
  simp [read]

theorem apply_storeMask (m : Machine lanes) (mask : Mask) (t : Nat) :
    m.apply batch (.storeMask mask t) = m.overwrite t [m.mask mask] := by
  rw [apply, show [m.mask mask] = [] ++ [m.mask mask] from rfl, overwrite_concat]
  simp

theorem apply_storeCoords (m : Machine lanes) (t : Nat) :
    m.apply batch (.storeCoords t) =
      m.overwrite t [m.registers.src.r, m.registers.src.g] := by
  rfl

theorem apply_storeInput (m : Machine lanes) (input : Input) (t : Nat) :
    m.apply batch (.storeInput input t) = m.overwrite t (m.input batch input).toList := by
  rfl

/-- The words of the value slots of a range, as a push reads them. -/
theorem window_eq_read (m : Machine lanes) (s n : Nat) :
    m.window s n =
      (List.range n).map fun i => Vector.ofFn fun lane => m.read batch .value (s + i) lane := by
  apply List.map_congr_left
  intro i _
  ext j hj
  simp [read, Vector.get]

/-! ## Copies -/

theorem slot_overwrite_of_disjoint (m : Machine lanes) {t s n i j : Nat}
    (h : s + n ≤ t ∨ t + n ≤ s) (hj : j < n) (hi : i ≤ n)
    (f : Nat → Vector UInt32 lanes) :
    (m.overwrite t ((List.range i).map f)).slot (s + j) = m.slot (s + j) := by
  rw [slot_overwrite, if_neg (by simp; omega)]

theorem slot_overwrite_self (m : Machine lanes) {t i : Nat} (f : Nat → Vector UInt32 lanes) :
    (m.overwrite t ((List.range i).map f)).slot (t + i) = m.slot (t + i) := by
  rw [slot_overwrite, if_neg (by simp)]

/-- Copying slots to slots elsewhere. -/
theorem copy_eq_store (m : Machine lanes) {t s n : Nat} (h : s + n ≤ t ∨ t + n ≤ s)
    (masked : Bool) : m.copy t s n masked = m.store masked t (m.window s n) := by
  rw [copy]
  rw [forEach_setSlot m t n (fun i m =>
    if masked then m.masked (m.slot (t + i)) (m.slot (s + i)) else m.slot (s + i))]
  · rw [store]
    congr 1
    cases masked with
    | false => simp [window]
    | true =>
      apply List.ext_getElem
      · simp
      · intro i hi hi'
        simp
  · intro i hi
    rw [slot_overwrite_of_disjoint m h hi hi.le, slot_overwrite_self, masked_overwrite]

/-- Pushing slots of the memory, from offsets that were determined before. -/
theorem apply_copyFromIndirect (m : Machine lanes) {t s n offset limit : Nat} (space : SlotSpace)
    (h : space = .value → max (s + n) limit ≤ t ∨ t + n ≤ s) :
    m.apply batch (.copyFromIndirect t s n offset limit space) =
      m.overwrite t ((List.range n).map fun i => Vector.ofFn fun lane =>
        m.read batch space (indirectStart s ((m.slot offset).get lane) n limit + i) lane) := by
  rw [apply]
  have starts : ∀ lane : Fin lanes,
      ((m.slot offset).map fun word => indirectStart s word n limit).get lane =
        indirectStart s ((m.slot offset).get lane) n limit := by
    intro lane
    simp [Vector.get]
  simp only [starts]
  refine forEach_setSlot m t n (fun i m' => Vector.ofFn fun lane =>
    m'.read batch space (indirectStart s ((m.slot offset).get lane) n limit + i) lane) ?_
  intro i hi
  congr 1
  funext lane
  cases space with
  | uniform => rfl
  | immutable => rfl
  | value =>
    have := h rfl
    simp only [read]
    rw [slot_overwrite, if_neg]
    simp only [List.length_map, List.length_range, indirectStart]
    omega

/-! ## Arithmetic -/

theorem apply_unary (m : Machine lanes) (op : UnaryOp) (ty : NumType) (t n : Nat) :
    m.apply batch (.unary op ty t n) =
      m.overwrite t ((m.window t n).map (Vector.map (op.eval ty))) := by
  rw [apply, forEach_setSlot m t n (fun i m => (m.slot (t + i)).map (op.eval ty))]
  · simp [window, Function.comp_def]
  · intro i _
    rw [slot_overwrite_self]

theorem apply_binaryImm (m : Machine lanes) (op : BinaryOp) (ty : NumType) (t n : Nat)
    (bits : UInt32) :
    m.apply batch (.binaryImm op ty t n bits) =
      m.overwrite t ((m.window t n).map (Vector.map fun x => op.eval ty x bits)) := by
  rw [apply, forEach_setSlot m t n (fun i m => (m.slot (t + i)).map fun x => op.eval ty x bits)]
  · simp [window, Function.comp_def]
  · intro i _
    rw [slot_overwrite_self]

/-- The second of two windows that follow each other. -/
theorem drop_window (m : Machine lanes) (t n k : Nat) :
    (m.window t (n + k)).drop n = m.window (t + n) k := by
  apply List.ext_getElem
  · simp
  · intro i _ _
    simp [Nat.add_assoc]

/-- The first of two windows that follow each other. -/
theorem take_window (m : Machine lanes) (t n k : Nat) :
    (m.window t (n + k)).take n = m.window t n := by
  apply List.ext_getElem
  · simp
  · intro i _ _
    simp

/-- A loop that combines two windows that follow each other. -/
theorem combine_window (m : Machine lanes) (t n : Nat)
    (f : Vector UInt32 lanes → Vector UInt32 lanes → Vector UInt32 lanes) :
    Words.combine n f (m.window t (2 * n)) =
      (List.range n).map fun i => f (m.slot (t + i)) (m.slot (t + n + i)) := by
  rw [Words.combine, show 2 * n = n + n by omega, drop_window, take_window]
  apply List.ext_getElem
  · simp
  · intro i _ _
    simp

theorem apply_binary (m : Machine lanes) (op : BinaryOp) (ty : NumType) (t n : Nat) :
    m.apply batch (.binary op ty t (t + n) n) =
      m.overwrite t (Words.combine n (Vector.zipWith (op.eval ty)) (m.window t (2 * n))) := by
  rw [apply, forEach_setSlot m t n
    (fun i m => (m.slot (t + i)).zipWith (op.eval ty) (m.slot (t + n + i)))]
  · rw [combine_window]
  · intro i hi
    rw [slot_overwrite_self, slot_overwrite_of_disjoint m (Or.inr le_rfl) hi hi.le]

theorem apply_select (m : Machine lanes) (t n : Nat) :
    m.apply batch (.select t (t + n) n) =
      m.overwrite t (Words.combine n m.masked (m.window t (2 * n))) := by
  rw [apply, copy_eq_store m (Or.inr le_rfl), store, combine_window]
  congr 1
  simp only [if_true]
  apply List.ext_getElem
  · simp
  · intro i _ _
    simp

theorem apply_ternary (m : Machine lanes) (op : TernaryOp) (ty : NumType) (t n : Nat) :
    m.apply batch (.ternary op ty t n) =
      m.overwrite t (Words.combine3 n (op.eval ty) (m.window t (3 * n))) := by
  rw [apply, forEach_setSlot m t n]
  · congr 1
    apply List.map_congr_left
    intro i hi
    have hi := List.mem_range.1 hi
    have get : ∀ k, k < 3 * n →
        (m.window t (3 * n)).getD k (Vector.replicate lanes 0) = m.slot (t + k) := by
      intro k hk
      rw [List.getD_eq_getElem _ _ (by simpa using hk), getElem_window]
    simp only [get i (by omega), get (n + i) (by omega), get (2 * n + i) (by omega),
      Nat.add_assoc]
  · intro i hi
    rw [slot_overwrite_self, slot_overwrite_of_disjoint m (Or.inr le_rfl) hi hi.le,
      slot_overwrite_of_disjoint m (Or.inr (by omega)) hi hi.le]

/-! ## Selections and matrices -/

theorem apply_swizzle (m : Machine lanes) (t consumed : Nat) (components : List Nat) :
    m.apply batch (.swizzle t consumed components) =
      m.overwrite t (Words.choose components (m.window t consumed)) := by
  simp only [apply]
  rw [fill_eq_overwrite]
  congr 1
  apply List.ext_getElem
  · simp [Words.choose]
  · intro i hi hi'
    have hi : i < components.length := by simpa using hi
    simp only [List.getElem_map, List.getElem_range, Words.choose]
    simp only [Array.getD_eq_getD_getElem?, Array.getElem?_map, List.getElem?_toArray,
      List.getElem?_eq_getElem hi, Option.map_some, Option.getD_some, List.getD_eq_getElem?_getD]
    by_cases h : components[i] < consumed
    · rw [List.getElem?_eq_getElem (by simpa using h)]
      simp [h]
    · rw [List.getElem?_eq_none (by simpa using h)]
      simp [Nat.not_lt.1 h]

theorem mapLanes_eq_overwrite (m : Machine lanes) (t consumed produced : Nat)
    (f : Array UInt32 → Array UInt32) :
    m.mapLanes t consumed produced f =
      m.overwrite t (Words.mapLanes produced f (m.window t consumed)) := by
  rw [mapLanes, fill_eq_overwrite, Words.mapLanes]
  have gathered : ∀ lane : Fin lanes,
      m.gather t consumed lane = ((m.window t consumed).map (·.get lane)).toArray := by
    intro lane
    apply Array.ext'
    simp [gather, window, Function.comp_def]
  simp only [gathered]

end Machine
end RasterShader
