import Mathlib
import RasterShader.Proofs.Stack.Machine

/-!
# Stores whose slots differ from lane to lane

A store through an offset writes to other slots in every lane. `Machine.Stores` says what such a
store leaves behind, word by word: in the lanes that write, each word of the value is at its slot,
and all other words are what they were.  Every way in which operations write a value to slots is one
of these stores: to a run of slots (`stores_store`), or lane after lane to components from some slot
on (`stores_forActiveLanes`).
-/

namespace RasterShader
namespace Machine

variable {lanes : Nat}

/-- From one memory to another, words were stored in the lanes that write, to components of the
slots from a start on.  Nothing else has changed. -/
structure Stores (m m' : Machine lanes) (writes : Fin lanes → Prop) (start : Fin lanes → Nat)
    (components : List Nat) (words : List (Vector UInt32 lanes)) : Prop where
  size : m'.values.size = m.values.size
  executes : ∀ lane, m'.executes lane = m.executes lane
  stored : components.Nodup → ∀ lane, writes lane → ∀ (i : Nat) (h : i < components.length),
    start lane + components[i] < m.values.size →
    (m'.slot (start lane + components[i])).get lane =
      (words.getD i (Vector.replicate lanes 0)).get lane
  kept : ∀ lane slot, (writes lane → ∀ c ∈ components, slot ≠ start lane + c) →
    (m'.slot slot).get lane = (m.slot slot).get lane

namespace Stores

variable {m m' m'' : Machine lanes} {writes writes' : Fin lanes → Prop} {start : Fin lanes → Nat}
  {components : List Nat} {words : List (Vector UInt32 lanes)}

theorem refl (m : Machine lanes) (start : Fin lanes → Nat) (components : List Nat)
    (words : List (Vector UInt32 lanes)) :
    Stores m m (fun _ => False) start components words :=
  ⟨rfl, fun _ => rfl, fun _ _ hwrites => hwrites.elim, fun _ _ _ => rfl⟩

theorem of_iff (h : Stores m m' writes start components words)
    (hwrites : ∀ lane, writes' lane ↔ writes lane) :
    Stores m m' writes' start components words := by
  rwa [show writes' = writes from funext fun lane => propext (hwrites lane)]

/-- Lanes store one after the other. -/
theorem trans (h : Stores m m' writes start components words)
    (h' : Stores m' m'' writes' start components words)
    (disjoint : ∀ lane, writes lane → ¬ writes' lane) :
    Stores m m'' (fun lane => writes lane ∨ writes' lane) start components words where
  size := h'.size.trans h.size
  executes := fun lane => (h'.executes lane).trans (h.executes lane)
  stored := by
    intro nodup lane hlane i hi hslot
    rcases hlane with hlane | hlane
    · rw [h'.kept lane _ fun hlane' => absurd hlane' (disjoint lane hlane)]
      exact h.stored nodup lane hlane i hi hslot
    · exact h'.stored nodup lane hlane i hi (h.size ▸ hslot)
  kept := by
    intro lane slot hslot
    rw [h'.kept lane slot fun hlane => hslot (.inr hlane),
      h.kept lane slot fun hlane => hslot (.inl hlane)]

end Stores

/-! ## One lane -/

theorem get_slot_setWord (m : Machine lanes) (i j : Nat) (lane other : Fin lanes) (w : UInt32) :
    ((m.setWord i lane w).slot j).get other =
      if i = j ∧ lane = other ∧ i < m.values.size then w else (m.slot j).get other := by
  rw [slot_setWord]
  by_cases hij : i = j ∧ i < m.values.size
  · rw [if_pos hij]
    by_cases hlane : lane = other
    · subst hlane
      rw [if_pos ⟨hij.1, rfl, hij.2⟩, Vector.get_eq_getElem]
      exact Vector.getElem_set_self ..
    · rw [if_neg fun h => hlane h.2.1, Vector.get_eq_getElem, Vector.get_eq_getElem]
      exact Vector.getElem_set_ne _ _ fun h => hlane (Fin.ext h)
  · rw [if_neg hij, if_neg fun h => hij ⟨h.1, h.2.2⟩]

@[simp] theorem executes_setWord (m : Machine lanes) (i : Nat) (lane other : Fin lanes)
    (w : UInt32) : (m.setWord i lane w).executes other = m.executes other := rfl

/-- Words stored to components are stored in that lane. -/
theorem stores_storeComponents (m : Machine lanes) (start : Fin lanes → Nat)
    (components : List Nat) (words : List (Vector UInt32 lanes)) (lane : Fin lanes) :
    Stores m (m.storeComponents (start lane) components words lane) (lane = ·) start components
      words := by
  rw [storeComponents]
  -- The words are numbered from `k` on, so that the induction can take the first component away.
  suffices rounds : ∀ (k : Nat) (m : Machine lanes), Stores m
      ((components.zipIdx k).foldl (fun m entry => m.setWord (start lane + entry.1) lane
        ((words.getD entry.2 (Vector.replicate lanes 0)).get lane)) m)
      (lane = ·) start components (words.drop k) from rounds 0 m
  induction components with
  | nil => exact fun k m => ⟨rfl, fun _ => rfl, fun _ _ _ i hi => absurd hi (by simp), fun _ _ _ => rfl⟩
  | cons c rest ih =>
    intro k m
    rw [List.zipIdx_cons, List.foldl_cons]
    have hrest := ih (k + 1)
      (m.setWord (start lane + c) lane ((words.getD k (Vector.replicate lanes 0)).get lane))
    refine ⟨by rw [hrest.size, size_setWord], fun other => by rw [hrest.executes, executes_setWord],
      ?_, ?_⟩
    · rintro nodup other rfl i hi hslot
      obtain ⟨hc, hnodup⟩ := List.nodup_cons.1 nodup
      cases i with
      | zero =>
        have hkept := hrest.kept lane (start lane + c) fun _ d hd h =>
          hc (by rwa [Nat.add_left_cancel h])
        rw [List.getElem_cons_zero] at hslot ⊢
        rw [hkept, get_slot_setWord, if_pos ⟨rfl, rfl, hslot⟩]
        simp [List.getD_eq_getElem?_getD]
      | succ i =>
        have hi : i < rest.length := by simpa using hi
        rw [List.getElem_cons_succ] at hslot ⊢
        rw [hrest.stored hnodup lane rfl i hi (by rwa [size_setWord])]
        simp [List.getD_eq_getElem?_getD, Nat.add_assoc, Nat.add_comm 1]
    · intro other slot hslot
      rw [hrest.kept other slot fun hother d hd => hslot hother d (List.mem_cons_of_mem c hd),
        get_slot_setWord, if_neg]
      rintro ⟨rfl, rfl, -⟩
      exact hslot rfl c (List.mem_cons_self ..) rfl

/-- Consecutive words are stored as components are. -/
theorem forEach_setWord (m : Machine lanes) (start count : Nat) (words : List (Vector UInt32 lanes))
    (lane : Fin lanes) :
    (m.forEach count fun i m =>
        m.setWord (start + i) lane ((words.getD i (Vector.replicate lanes 0)).get lane)) =
      m.storeComponents start (List.range count) words lane := by
  induction count with
  | zero => rfl
  | succ count ih =>
    rw [forEach_succ, ih, storeComponents, storeComponents, List.range_succ, List.zipIdx_append,
      List.foldl_append]
    simp

/-! ## All lanes -/

/-- Each lane that executes stores its own words. -/
theorem stores_forActiveLanes {start : Fin lanes → Nat} {components : List Nat}
    {words : List (Vector UInt32 lanes)} {f : Fin lanes → Machine lanes → Machine lanes}
    (h : ∀ lane m, Stores m (f lane m) (lane = ·) start components words) (m : Machine lanes) :
    Stores m (m.forActiveLanes f) (fun lane => m.executes lane = true) start components words := by
  rw [forActiveLanes, Fin.foldl_eq_finRange_foldl]
  suffices rounds : ∀ (ls : List (Fin lanes)) (m : Machine lanes), ls.Nodup →
      Stores m (ls.foldl (fun m lane => if m.executes lane then f lane m else m) m)
        (fun lane => m.executes lane = true ∧ lane ∈ ls) start components words from
    (rounds _ m (List.nodup_finRange lanes)).of_iff fun lane => by simp
  intro ls
  induction ls with
  | nil => exact fun m _ => (Stores.refl m start components words).of_iff (by simp)
  | cons lane ls ih =>
    intro m nodup
    obtain ⟨hlane, hnodup⟩ := List.nodup_cons.1 nodup
    rw [List.foldl_cons]
    by_cases hexec : m.executes lane = true
    · rw [if_pos hexec]
      have hone := h lane m
      refine (hone.trans (ih (f lane m) hnodup) ?_).of_iff fun other => ?_
      · rintro other rfl ⟨-, hother⟩
        exact hlane hother
      · rw [hone.executes, List.mem_cons]
        constructor
        · rintro ⟨hother, rfl | hmem⟩
          · exact .inl rfl
          · exact .inr ⟨hother, hmem⟩
        · rintro (rfl | ⟨hother, hmem⟩)
          · exact ⟨hexec, .inl rfl⟩
          · exact ⟨hother, .inr hmem⟩
    · rw [if_neg hexec]
      refine (ih m hnodup).of_iff fun other => ?_
      rw [List.mem_cons]
      constructor
      · rintro ⟨hother, rfl | hmem⟩
        · exact absurd hother hexec
        · exact ⟨hother, hmem⟩
      · exact fun hother => ⟨hother.1, .inr hother.2⟩

theorem get_masked (m : Machine lanes) (old new : Vector UInt32 lanes) (lane : Fin lanes) :
    (m.masked old new).get lane = if m.executes lane then new.get lane else old.get lane := by
  simp [masked, Vector.get_eq_getElem]

/-- Consecutive slots are stored to in all lanes, or in those that execute. -/
theorem stores_store (m : Machine lanes) (masked : Bool) (target : Nat)
    (words : List (Vector UInt32 lanes)) :
    Stores m (m.store masked target words) (fun lane => masked = true → m.executes lane = true)
      (fun _ => target) (List.range words.length) words := by
  have hslot : ∀ slot lane, ((m.store masked target words).slot slot).get lane =
      if target ≤ slot ∧ slot < target + words.length ∧ slot < m.values.size ∧
        (masked = true → m.executes lane = true)
      then (words.getD (slot - target) (Vector.replicate lanes 0)).get lane
      else (m.slot slot).get lane := by
    intro slot lane
    cases masked with
    | false =>
      simp only [store, Bool.false_eq_true, if_false, slot_overwrite, false_implies, and_true]
      split <;> rfl
    | true =>
      simp only [store, if_true, slot_overwrite, List.length_zipWith, length_window, Nat.min_self,
        true_implies]
      by_cases hin : target ≤ slot ∧ slot < target + words.length ∧ slot < m.values.size
      · have hi : slot - target < words.length := by omega
        rw [if_pos hin, List.getD_eq_getElem _ _ (by simpa using hi), List.getElem_zipWith,
          getElem_window, get_masked, List.getD_eq_getElem _ _ hi,
          show target + (slot - target) = slot by omega]
        simp [hin]
      · rw [if_neg hin, if_neg fun h => hin ⟨h.1, h.2.1, h.2.2.1⟩]
  refine ⟨size_overwrite .., fun lane => executes_overwrite .., ?_, ?_⟩
  · intro _ lane hlane i hi hsize
    have hi : i < words.length := by simpa using hi
    rw [List.getElem_range] at hsize ⊢
    rw [hslot, if_pos ⟨by omega, by omega, hsize, hlane⟩, Nat.add_sub_cancel_left]
  · intro lane slot hkept
    rw [hslot, if_neg]
    rintro ⟨hle, hlt, -, hlane⟩
    exact hkept hlane (slot - target) (List.mem_range.2 (by omega)) (by omega)

end Machine
end RasterShader
