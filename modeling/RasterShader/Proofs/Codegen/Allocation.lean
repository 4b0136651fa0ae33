import Mathlib
import RasterShader.Proofs.Codegen.Place
import RasterShader.Proofs.Codegen.SlotNames

/-!
# Handing out slots

Whatever is asked of a table of slots, the ranges that it hands out follow each other from the first
slot on (`SlotRange.Tile`), and when tracing, its descriptions are those of the types they were
handed out for, in the same order (`SlotTable.Records`).  Lending and giving back changes what is
looked up, but neither.  So the ranges share no slot, they have all of the slots so far, and the
description of a slot names the variable whose range it is in.

Variables borrow slots like a stack in a table: what was lent last comes first, and giving back
removes it.  `SlotTable.restore` is the same for borrowing that is not nested, where an earlier loan
is put back by hand.
-/

namespace RasterShader

/-! ## Consecutive ranges -/

/-- The ranges follow each other from `start` to `stop`. -/
def SlotRange.Tile (start : Nat) : List SlotRange → Nat → Prop
  | [], stop => start = stop
  | range :: ranges, stop => range.index = start ∧ Tile range.stop ranges stop

namespace SlotRange.Tile

variable {start stop stop' : Nat} {range : SlotRange} {ranges ranges' : List SlotRange}

theorem le (h : Tile start ranges stop) : start ≤ stop := by
  induction ranges generalizing start with
  | nil => exact h.le
  | cons range ranges ih =>
    have := ih h.2
    simp only [SlotRange.stop, h.1] at this
    omega

theorem append (h : Tile start ranges stop) (h' : Tile stop ranges' stop') :
    Tile start (ranges ++ ranges') stop' := by
  induction ranges generalizing start with
  | nil => exact h ▸ h'
  | cons range ranges ih => exact ⟨h.1, ih h.2⟩

theorem mem_iff (h : Tile start ranges stop) (slot : Nat) :
    (start ≤ slot ∧ slot < stop) ↔ ∃ range ∈ ranges, range.index ≤ slot ∧ slot < range.stop := by
  induction ranges generalizing start with
  | nil =>
    obtain rfl : start = stop := h
    simp
  | cons range ranges ih =>
    have hle := h.2.le
    have hcount : range.index ≤ range.stop := Nat.le_add_right ..
    have hindex := h.1
    rw [List.exists_mem_cons_iff, ← ih h.2]
    omega

theorem le_index (h : Tile start ranges stop) : ∀ range ∈ ranges, start ≤ range.index := by
  induction ranges generalizing start with
  | nil => simp
  | cons first ranges ih =>
    have hcount : first.index ≤ first.stop := Nat.le_add_right ..
    rw [List.forall_mem_cons]
    exact ⟨h.1.ge, fun range hrange => (h.1.ge.trans hcount).trans (ih h.2 range hrange)⟩

/-- No two of the ranges share a slot. -/
theorem pairwise (h : Tile start ranges stop) :
    ranges.Pairwise fun a b => a.overlaps b = false := by
  induction ranges generalizing start with
  | nil => exact .nil
  | cons range ranges ih =>
    refine List.pairwise_cons.2 ⟨fun other hother => ?_, ih h.2⟩
    have hstart := h.2.le_index other hother
    simp only [overlaps, Bool.and_eq_false_iff, decide_eq_false_iff_not]
    exact .inr (Nat.not_lt.2 hstart)

end SlotRange.Tile

namespace SlotTable

/-! ## Borrowed slots -/

/-- Sets what a variable borrows. -/
def restore (table : SlotTable) (id : Nat) : Option SlotRange → SlotTable
  | some range => table.lend id range
  | none => { table with lent := table.lent.filter (·.1 != id) }

/-- What a variable borrowed before it borrowed what it has now. -/
def covered? (table : SlotTable) (id : Nat) : Option SlotRange :=
  (table.lent.eraseP (·.1 == id)).lookup id

variable {table table' : SlotTable}

theorem lookup_eraseP {entries : List (Nat × SlotRange)} {id other : Nat} (h : other ≠ id) :
    (entries.eraseP (·.1 == id)).lookup other = entries.lookup other := by
  induction entries with
  | nil => rfl
  | cons entry entries ih =>
    obtain ⟨key, range⟩ := entry
    by_cases hkey : key = id
    · subst hkey
      simp [List.lookup_cons, beq_false_of_ne h]
    · simp [List.lookup_cons, hkey, ih]

theorem lookup_filter {entries : List (Nat × SlotRange)} {id other : Nat} (h : other ≠ id) :
    (entries.filter (·.1 != id)).lookup other = entries.lookup other := by
  induction entries with
  | nil => rfl
  | cons entry entries ih =>
    obtain ⟨key, range⟩ := entry
    by_cases hkey : key = id
    · subst hkey
      simp [List.lookup_cons, beq_false_of_ne h, ih]
    · simp [List.lookup_cons, hkey, ih]

theorem lookup_restore (table : SlotTable) (id : Nat) (previous : Option SlotRange) :
    (table.restore id previous).lent.lookup id = previous := by
  cases previous with
  | some range => exact List.lookup_cons_self
  | none =>
    refine List.lookup_eq_none_iff.2 fun entry hentry => ?_
    have hkey : entry.1 ≠ id := by simpa using (List.mem_filter.1 hentry).2
    exact bne_iff_ne.2 hkey.symm

theorem lookup_restore_of_ne (table : SlotTable) {id other : Nat} (h : other ≠ id)
    (previous : Option SlotRange) :
    (table.restore id previous).lent.lookup other = table.lent.lookup other := by
  cases previous with
  | some range => simp [restore, lend, List.lookup_cons, beq_false_of_ne h]
  | none => exact lookup_filter h

/-- To give slots back is to restore what was borrowed before. -/
theorem get?_giveBack (table : SlotTable) (id : Nat) (v : Variable) :
    (table.giveBack id).get? v = (table.restore id (table.covered? id)).get? v := by
  have hlent : (table.giveBack id).lent.lookup v.id =
      (table.restore id (table.covered? id)).lent.lookup v.id := by
    by_cases hid : v.id = id
    · rw [hid, lookup_restore]
      rfl
    · rw [lookup_restore_of_ne table hid]
      exact lookup_eraseP hid
  have hranges : (table.restore id (table.covered? id)).ranges = table.ranges := by
    cases table.covered? id <;> rfl
  rw [get?, get?, hlent, hranges]
  rfl

theorem covered?_lend (table : SlotTable) (id : Nat) (range : SlotRange) :
    (table.lend id range).covered? id = table.lent.lookup id := by
  simp [covered?, lend]

/-! ## Calls -/

/-- What can be asked of a table. -/
inductive Call where
  | allocate (name : String) (ty : Ty) (line : Nat) (resultOf : Option Nat)
  | getOrAllocate (v : Variable) (line : Nat)
  | lend (id : Nat) (range : SlotRange)
  | giveBack (id : Nat)
  | restore (id : Nat) (previous : Option SlotRange)

/-- Slots that were handed out, and what for. -/
structure Grant where
  /-- The variable that keeps them. -/
  owner : Option Nat
  name : String
  ty : Ty
  line : Nat
  resultOf : Option Nat
  range : SlotRange

/-- Descriptions of the slots. -/
def Grant.info (grant : Grant) : List SlotInfo :=
  grant.ty.slotInfo grant.name grant.line grant.resultOf

/-- What a trace has to say about one of the slots. -/
def Grant.describe (grant : Grant) : Nat → SlotInfo :=
  grant.ty.describe grant.name grant.line grant.resultOf

/-- The slots that are handed out by a call, and the table after it. -/
def Call.run (table : SlotTable) : Call → List Grant × SlotTable
  | allocate name ty line resultOf =>
    let (range, table) := table.allocate name ty line resultOf
    ([⟨none, name, ty, line, resultOf, range⟩], table)
  | getOrAllocate v line =>
    let known := table.get? v
    let (range, table) := table.getOrAllocate v line
    (if known.isSome then [] else [⟨some v.id, v.name, v.ty, line, none, range⟩], table)
  | lend id range => ([], table.lend id range)
  | giveBack id => ([], table.giveBack id)
  | restore id previous => ([], table.restore id previous)

/-- The slots that are handed out by calls, in order, and the table after them. -/
def runCalls (table : SlotTable) : List Call → List Grant × SlotTable
  | [] => ([], table)
  | call :: calls =>
    let (grants, table) := call.run table
    let (more, table) := runCalls table calls
    (grants ++ more, table)

/-! ## Records of what was handed out -/

/-- The table is what has become of a traced one without slots when slots were handed out. -/
structure Records (grants : List Grant) (table : SlotTable) : Prop where
  tile : SlotRange.Tile 0 (grants.map Grant.range) table.next
  count : ∀ grant ∈ grants, grant.range.count = grant.ty.slotCount
  owned : ∀ entry ∈ table.ranges,
    ∃ grant ∈ grants, grant.owner = some entry.1 ∧ grant.range = entry.2
  info : table.info = some (grants.flatMap Grant.info)

variable {grants : List Grant}

theorem records_empty : Records [] (empty true) := ⟨rfl, by simp, by simp [empty], rfl⟩

theorem Records.allocate (h : Records grants table) (owner : Option Nat) (name : String) (ty : Ty)
    (line : Nat) (resultOf : Option Nat) :
    Records (grants ++ [⟨owner, name, ty, line, resultOf,
      (table.allocate name ty line resultOf).1⟩]) (table.allocate name ty line resultOf).2 where
  tile := by
    rw [List.map_append]
    exact h.tile.append ⟨rfl, rfl⟩
  count := by
    rw [List.forall_mem_append]
    exact ⟨h.count, by simp [SlotTable.allocate]⟩
  owned entry hentry := by
    obtain ⟨grant, hgrant, howner⟩ := h.owned entry hentry
    exact ⟨grant, List.mem_append_left _ hgrant, howner⟩
  info := by
    rw [List.flatMap_append, SlotTable.allocate, h.info]
    simp [Grant.info]

/-- A call adds what it hands out. -/
theorem Records.run (h : Records grants table) (call : Call) :
    Records (grants ++ (call.run table).1) (call.run table).2 := by
  have unchanged (lent : List (Nat × SlotRange)) :
      Records (grants ++ []) { table with lent := lent } := by
    rw [List.append_nil]
    exact ⟨h.tile, h.count, h.owned, h.info⟩
  cases call with
  | allocate name ty line resultOf => exact h.allocate none name ty line resultOf
  | getOrAllocate v line =>
    cases hknown : table.get? v with
    | some range =>
      simp only [Call.run, SlotTable.getOrAllocate, hknown]
      exact unchanged table.lent
    | none =>
      have hnew := h.allocate (some v.id) v.name v.ty line none
      simp only [Call.run, SlotTable.getOrAllocate, hknown]
      refine ⟨hnew.tile, hnew.count, ?_, hnew.info⟩
      rw [List.forall_mem_cons]
      exact ⟨⟨_, List.mem_append_right _ (List.mem_singleton.2 rfl), rfl, rfl⟩, hnew.owned⟩
  | lend id range => exact unchanged _
  | giveBack id => exact unchanged _
  | restore id previous =>
    cases previous with
    | some range => exact unchanged _
    | none => exact unchanged _

theorem Records.runCalls (h : Records grants table) (calls : List Call) :
    Records (grants ++ (table.runCalls calls).1) (table.runCalls calls).2 := by
  induction calls generalizing grants table with
  | nil => simpa [SlotTable.runCalls] using h
  | cons call calls ih =>
    have hrest := ih (h.run call)
    rwa [List.append_assoc] at hrest

/-- Every slot that was handed out is described as the slot of a variable that it is. -/
theorem getElem?_flatMap_info {start stop i slot : Nat} {grant : Grant}
    (htile : SlotRange.Tile start (grants.map Grant.range) stop)
    (hcount : ∀ grant ∈ grants, grant.range.count = grant.ty.slotCount) (hgrant : grant ∈ grants)
    (hslot : slot < grant.ty.slotCount) (hi : start + i = grant.range.index + slot) :
    (grants.flatMap Grant.info)[i]? = some (grant.describe slot) := by
  induction grants generalizing start i with
  | nil => simp at hgrant
  | cons first grants ih =>
    obtain ⟨hindex, hrest⟩ : first.range.index = start ∧
      SlotRange.Tile first.range.stop (grants.map Grant.range) stop := htile
    obtain ⟨hfirst, hothers⟩ := List.forall_mem_cons.1 hcount
    have hlength : first.info.length = first.range.count :=
      (Ty.length_slotInfo ..).trans hfirst.symm
    rw [List.flatMap_cons]
    rcases List.mem_cons.1 hgrant with rfl | hmem
    · obtain rfl : i = slot := by omega
      rw [List.getElem?_append_left (by omega), Grant.info, Ty.slotInfo_eq, List.getElem?_map,
        List.getElem?_range hslot]
      rfl
    · have hle := hrest.le_index grant.range (List.mem_map_of_mem hmem)
      simp only [SlotRange.stop] at hrest hle
      rw [List.getElem?_append_right (by omega)]
      exact ih hrest hothers hmem (by omega)

theorem add_length_flatMap_info {start stop : Nat}
    (htile : SlotRange.Tile start (grants.map Grant.range) stop)
    (hcount : ∀ grant ∈ grants, grant.range.count = grant.ty.slotCount) :
    start + (grants.flatMap Grant.info).length = stop := by
  induction grants generalizing start with
  | nil => exact htile
  | cons first grants ih =>
    obtain ⟨hindex, hrest⟩ : first.range.index = start ∧
      SlotRange.Tile first.range.stop (grants.map Grant.range) stop := htile
    obtain ⟨hfirst, hothers⟩ := List.forall_mem_cons.1 hcount
    have hlength : first.info.length = first.range.count :=
      (Ty.length_slotInfo ..).trans hfirst.symm
    have hstop := ih hrest hothers
    rw [List.flatMap_cons, List.length_append]
    simp only [SlotRange.stop] at hstop
    omega

/-- The slots of a table are those that were handed out, and the trace names each of them. -/
structure Consistent (grants : List Grant) (table : SlotTable) : Prop where
  /-- The ranges follow each other from the first slot to the last one. -/
  tile : SlotRange.Tile 0 (grants.map Grant.range) table.next
  disjoint : (grants.map Grant.range).Pairwise fun a b => a.overlaps b = false
  cover (slot : Nat) : slot < table.next ↔
    ∃ grant ∈ grants, grant.range.index ≤ slot ∧ slot < grant.range.stop
  /-- What a variable has of its own was handed out for it. -/
  owned {id : Nat} {range : SlotRange} : table.ranges.lookup id = some range →
    ∃ grant ∈ grants, grant.owner = some id ∧ grant.range = range
  described : ∃ info, table.info = some info ∧ info.length = table.next ∧
    ∀ grant ∈ grants, grant.range.count = grant.ty.slotCount ∧
      ∀ slot < grant.ty.slotCount, info[grant.range.index + slot]? = some (grant.describe slot)

theorem Records.consistent (h : Records grants table) : Consistent grants table where
  tile := h.tile
  disjoint := h.tile.pairwise
  cover slot := by simpa using h.tile.mem_iff slot
  owned hlookup := h.owned _ (mem_of_lookup hlookup)
  described := by
    refine ⟨_, h.info, ?_, fun grant hgrant => ⟨h.count grant hgrant, fun slot hslot => ?_⟩⟩
    · simpa using add_length_flatMap_info h.tile h.count
    · exact getElem?_flatMap_info h.tile h.count hgrant hslot (Nat.zero_add _)

/-- Whatever is asked of a table that traces, its slots are those that it has handed out, range by
range, and described as what they were handed out for.  The lists of the slots of a type that this
rests on agree with each other, with the number of slots and with the offsets of fields. -/
theorem slots_consistent (calls : List Call) :
    Consistent ((empty true).runCalls calls).1 ((empty true).runCalls calls).2 ∧
      ∀ (ty : Ty) (name : String) (line : Nat) (resultOf : Option Nat),
        (ty.slotInfo name line resultOf).length = ty.slotCount ∧
        ty.slotKinds.length = ty.slotCount ∧
        (∀ slot < ty.slotCount,
          (ty.locate name slot).2.1.isShaped = true ∧
          (ty.locate name slot).2.2 < (ty.locate name slot).2.1.slotCount ∧
          (ty.slotInfo name line resultOf)[slot]? = some (ty.describe name line resultOf slot) ∧
          ty.slotKinds[slot]? = some (ty.locate name slot).2.1.numberKind) ∧
        ∀ (i : Nat) (f : Field), ty.fields[i]? = some f →
          (ty.slotKinds.drop (ty.fieldSlotOffset i)).take f.ty.slotCount = f.ty.slotKinds ∧
          ((ty.slotInfo name line resultOf).drop (ty.fieldSlotOffset i)).take f.ty.slotCount =
            (f.ty.slotInfo s!"{name}.{f.name}" line resultOf).map fun info =>
              { info with groupIndex := ty.fieldSlotOffset i + info.groupIndex } := by
  refine ⟨(records_empty.runCalls calls).consistent, fun ty name line resultOf =>
    ⟨ty.length_slotInfo name line resultOf, ty.length_slotKinds, fun slot hslot => ?_,
      fun i f hf => ⟨Ty.slotKinds_field hf, Ty.slotInfo_field name line resultOf hf⟩⟩⟩
  obtain ⟨hshaped, hwithin⟩ := ty.locate_within name hslot
  refine ⟨hshaped, hwithin, ?_, ?_⟩
  · rw [Ty.slotInfo_eq, List.getElem?_map, List.getElem?_range hslot]
    rfl
  · rw [ty.slotKinds_eq name, List.getElem?_map, List.getElem?_range hslot]
    rfl

/-- A struct of a vector and an array. -/
def lightType : Ty :=
  .struct "Light" [⟨"at", .float2, default, default⟩, ⟨"tags", .array .int (some 2), default, default⟩]
    false

/-- A variable of that type. -/
def light : Variable := { (default : Variable) with id := 7, name := "light", ty := lightType }

/-- The variable borrows the slot of a function result before it gets slots of its own. -/
def lightCalls : List Call :=
  [.allocate "[f].result" .float 4 (some 0), .lend light.id ⟨0, 1⟩, .getOrAllocate light 9,
    .restore light.id none, .getOrAllocate light 9]

theorem slots_consistent_borrowed :
    ((empty true).runCalls lightCalls).1.map Grant.range = [⟨0, 1⟩, ⟨1, 4⟩] ∧
      (∃ info, ((empty true).runCalls lightCalls).2.info = some info ∧ info.length = 5 ∧
        info[4]? = some ⟨"light.tags[1]", 1, 1, 0, 3, .signed, 9, none⟩) ∧
      (lightType.slotKinds.drop 2).take 2 = [.signed, .signed] := by
  obtain ⟨hcalls, htypes⟩ := slots_consistent lightCalls
  obtain ⟨info, hinfo, hlength, hdescribed⟩ := hcalls.described
  have hgrant : (⟨some 7, "light", lightType, 9, none, ⟨1, 4⟩⟩ : Grant) ∈
      ((empty true).runCalls lightCalls).1 := List.mem_cons_of_mem _ List.mem_cons_self
  have hslot := (hdescribed _ hgrant).2 3 (by decide)
  have hfield := ((htypes lightType "light" 9 none).2.2.2 1 _ rfl).1
  exact ⟨rfl, ⟨info, hinfo, hlength, hslot⟩, hfield⟩

end SlotTable

end RasterShader
