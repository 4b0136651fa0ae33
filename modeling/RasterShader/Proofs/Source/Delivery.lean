import Mathlib
import RasterShader.Proofs.Reading.Sessions

/-!
# Entries are delivered once and in order

Buffers of a sink are nested: a buffer that is committed passes its entries on to the enclosing one,
which may be discarded itself later on.  So what becomes of an entry is decided by all the buffers
that were open when it was recorded.

This is said of the calls alone.  `recorded` lists the places of the calls at which an entry is
recorded, with the calls before and after it.  Such an entry is discarded (`Recorded.IsDiscarded`) if
one of the buffers that it was recorded in is, and held back (`Recorded.IsHeld`) as long as one of
them is open.  A sink delivers the entries that are neither, in the order in which they were
recorded (`delivered_runCalls`); after calls that close all the buffers that they open, these are
the entries outside of all discarded buffers (`entries_delivered_once`).
-/

namespace RasterShader

namespace Sink

variable {α : Type}

/-! ## Calls -/

/-- What is done to a sink. -/
inductive Call (α : Type) where
  | report (entry : α)
  | beginBuffer
  | commitBuffer
  | discardBuffer

/-- A place of calls at which an entry is recorded. -/
structure Recorded (α : Type) where
  before : List (Call α)
  entry : α
  after : List (Call α)

namespace Call

/-- Makes a call. -/
def apply (sink : Sink α) : Call α → Sink α
  | report entry => sink.report entry
  | beginBuffer => sink.beginBuffer
  | commitBuffer => sink.commitBuffer
  | discardBuffer => sink.discardBuffer

/-- How many buffers are open after calls, if `count` are before.  No buffer may be closed that is
not open. -/
def openAfter (count : Nat) : List (Call α) → Option Nat
  | [] => some count
  | report _ :: calls => openAfter count calls
  | beginBuffer :: calls => openAfter (count + 1) calls
  | commitBuffer :: calls | discardBuffer :: calls =>
    match count with
    | 0 => none
    | count + 1 => openAfter count calls

/-- All buffers that are opened are closed, and no others. -/
def WellNested (calls : List (Call α)) : Prop := openAfter 0 calls = some 0

instance (calls : List (Call α)) : Decidable (WellNested calls) :=
  inferInstanceAs (Decidable (openAfter 0 calls = some 0))

/-- The places of calls at which an entry is recorded, in order, where other calls came before. -/
def recorded (before : List (Call α)) : List (Call α) → List (Recorded α)
  | [] => []
  | report entry :: calls => ⟨before, entry, calls⟩ :: recorded (before ++ [report entry]) calls
  | call :: calls => recorded (before ++ [call]) calls

theorem openAfter_append (count : Nat) (first rest : List (Call α)) :
    openAfter count (first ++ rest) = (openAfter count first).bind (openAfter · rest) := by
  fun_induction openAfter count first <;> simp_all [openAfter]

end Call

/-- The sink after calls. -/
def runCalls (sink : Sink α) (calls : List (Call α)) : Sink α := calls.foldl Call.apply sink

namespace Recorded

/-- A buffer that the entry was recorded in has been discarded. -/
def IsDiscarded (r : Recorded α) : Prop :=
  ∃ inner inner', .beginBuffer :: inner <:+ r.before ∧ inner' ++ [.discardBuffer] <+: r.after ∧
    Call.WellNested (inner ++ inner')

/-- A buffer that the entry was recorded in is still open. -/
def IsHeld (r : Recorded α) : Prop :=
  ∃ inner, .beginBuffer :: inner <:+ r.before ∧
    (Call.openAfter 0 (inner ++ r.after)).isSome = true

end Recorded

namespace Call

variable {calls : List (Call α)} {count inner outer m : Nat}

/-! ## Buffers that are open -/

/-- The buffers that are open after calls are told apart by how many are open within them. -/
theorem exists_opened_iff (h : openAfter 0 calls = some count) :
    (∃ since, beginBuffer :: since <:+ calls ∧ openAfter 0 since = some m) ↔ m < count := by
  induction calls using List.reverseRecOn generalizing count m with
  | nil =>
    obtain rfl : 0 = count := Option.some.inj h
    simp
  | append_singleton calls call ih =>
    rw [openAfter_append, Option.bind_eq_some_iff] at h
    obtain ⟨k, hk, hcall⟩ := h
    -- Either the last call opens the buffer, or the buffer was open before it.
    have hsplit : (∃ since, beginBuffer :: since <:+ calls ++ [call] ∧ openAfter 0 since = some m) ↔
        (call = beginBuffer ∧ m = 0) ∨ ∃ n < k, openAfter n [call] = some m := by
      constructor
      · rintro ⟨since, hsuffix, hsince⟩
        rcases List.suffix_concat_iff.1 hsuffix with hnil | ⟨opened, hopened, hbefore⟩
        · cases hnil
        · cases opened with
          | nil =>
            obtain ⟨rfl, rfl⟩ := List.cons.inj hopened
            exact .inl ⟨rfl, (Option.some.inj hsince).symm⟩
          | cons first since' =>
            obtain ⟨rfl, rfl⟩ : beginBuffer = first ∧ since = since' ++ [call] :=
              List.cons.inj hopened
            rw [openAfter_append, Option.bind_eq_some_iff] at hsince
            obtain ⟨n, hn, hlast⟩ := hsince
            exact .inr ⟨n, (ih hk).1 ⟨since', hbefore, hn⟩, hlast⟩
      · rintro (⟨rfl, rfl⟩ | ⟨n, hlt, hlast⟩)
        · exact ⟨[], List.suffix_append _ _, rfl⟩
        · obtain ⟨since, hsuffix, hsince⟩ := (ih hk).2 hlt
          refine ⟨since ++ [call], ?_, ?_⟩
          · exact List.suffix_concat_iff.2 (.inr ⟨beginBuffer :: since, rfl, hsuffix⟩)
          · rw [openAfter_append, hsince]
            exact hlast
    rw [hsplit]
    cases call with
    | report entry =>
      obtain rfl : k = count := Option.some.inj hcall
      simp [openAfter]
    | beginBuffer =>
      obtain rfl : k + 1 = count := Option.some.inj hcall
      cases m <;> simp [openAfter]
    | commitBuffer | discardBuffer =>
      cases k with
      | zero => cases hcall
      | succ k =>
        obtain rfl : k = count := Option.some.inj hcall
        constructor
        · rintro (⟨hopens, -⟩ | ⟨_ | n, hn, hlast⟩)
          · cases hopens
          · cases hlast
          · obtain rfl : n = m := Option.some.inj hlast
            omega
        · exact fun hm => .inr ⟨m + 1, by omega, rfl⟩

/-! ## What becomes of an entry -/

/-- An open buffer with `m` buffers open within it is discarded by calls. -/
def Discards (m : Nat) (calls : List (Call α)) : Prop :=
  ∃ first, first ++ [discardBuffer] <+: calls ∧ openAfter m first = some 0

theorem discards_cons_iff {call : Call α} :
    Discards m (call :: calls) ↔
      (call = discardBuffer ∧ m = 0) ∨ ∃ n, openAfter m [call] = some n ∧ Discards n calls := by
  constructor
  · rintro ⟨first, hstarts, hfirst⟩
    cases first with
    | nil =>
      obtain ⟨rfl, -⟩ := List.cons_prefix_cons.1 hstarts
      exact .inl ⟨rfl, Option.some.inj hfirst⟩
    | cons call' first =>
      obtain ⟨rfl, hrest⟩ := List.cons_prefix_cons.1 hstarts
      rw [← List.singleton_append, openAfter_append, Option.bind_eq_some_iff] at hfirst
      obtain ⟨n, hn, hfirst⟩ := hfirst
      exact .inr ⟨n, hn, first, hrest, hfirst⟩
  · rintro (⟨rfl, rfl⟩ | ⟨n, hn, first, hstarts, hfirst⟩)
    · exact ⟨[], List.prefix_append _ _, rfl⟩
    · refine ⟨call :: first, List.cons_prefix_cons.2 ⟨rfl, hstarts⟩, ?_⟩
      rw [← List.singleton_append, openAfter_append, hn]
      exact hfirst

/-- An entry within `outer` buffers gets through calls, where `inner` more have been opened since. -/
def passes (inner outer : Nat) : List (Call α) → Bool
  | [] => outer == 0
  | report _ :: calls => passes inner outer calls
  | beginBuffer :: calls => passes (inner + 1) outer calls
  | commitBuffer :: calls =>
    match inner with
    | 0 => passes 0 (outer - 1) calls
    | inner + 1 => passes inner outer calls
  | discardBuffer :: calls =>
    match inner with
    | 0 => outer == 0 && passes 0 0 calls
    | inner + 1 => passes inner outer calls

/-- An entry gets through if none of its buffers is discarded or stays open. -/
theorem passes_iff : passes inner outer calls = true ↔ ∀ m, inner ≤ m → m < inner + outer →
    ¬ Discards m calls ∧ ¬ (openAfter m calls).isSome = true := by
  -- When a buffer is opened or closed, those around it have one more or less open within them.
  have shift (inner outer : Nat) (P : Nat → Prop) :
      (∀ m, inner + 1 ≤ m → m < inner + 1 + outer → P m) ↔
        ∀ m, inner ≤ m → m < inner + outer → P (m + 1) := by
    constructor
    · exact fun h m hle hlt => h (m + 1) (by omega) (by omega)
    · rintro h (_ | m) hle hlt
      · omega
      · exact h m (by omega) (by omega)
  induction calls generalizing inner outer with
  | nil =>
    have hnone (m : Nat) : ¬ Discards m ([] : List (Call α)) := by simp [Discards]
    rw [passes, beq_iff_eq]
    refine ⟨fun h m hle hlt => by omega, fun h => ?_⟩
    by_contra houter
    exact (h inner le_rfl (by omega)).2 rfl
  | cons call calls ih =>
    cases call with
    | report entry => simp [passes, ih, discards_cons_iff, openAfter]
    | beginBuffer =>
      rw [passes, ih.trans (shift ..)]
      simp [discards_cons_iff, openAfter]
    | commitBuffer =>
      cases inner with
      | succ inner =>
        rw [passes, shift]
        simpa [discards_cons_iff, openAfter] using ih
      | zero =>
        rw [passes]
        refine ih.trans ?_
        constructor
        · rintro h (_ | m) hle hlt
          · simp [discards_cons_iff, openAfter]
          · simpa [discards_cons_iff, openAfter] using h m (Nat.zero_le m) (by omega)
        · intro h m hle hlt
          simpa [discards_cons_iff, openAfter] using h (m + 1) (Nat.zero_le _) (by omega)
    | discardBuffer =>
      cases inner with
      | succ inner =>
        rw [passes, shift]
        simpa [discards_cons_iff, openAfter] using ih
      | zero =>
        rw [passes, Bool.and_eq_true, beq_iff_eq]
        constructor
        · rintro ⟨rfl, -⟩ m hle hlt
          omega
        · intro h
          have houter : outer = 0 := by
            by_contra hpos
            exact (h 0 le_rfl (by omega)).1 (discards_cons_iff.2 (.inl ⟨rfl, rfl⟩))
          exact ⟨houter, ih.2 fun m hle hlt => by omega⟩

end Call

/-! ## What a sink delivers -/

open Sink.Call

/-- The entries of buffers that get through calls, where `inner` buffers are open within the first
of them. -/
def passing (calls : List (Call α)) (inner : Nat) : List (List α) → List α
  | [] => []
  | buffer :: outer =>
    passing calls (inner + 1) outer ++ if passes inner (outer.length + 1) calls then buffer else []

/-- The entries recorded by calls that get through those that follow, where `count` buffers are
open. -/
def passed (count : Nat) : List (Call α) → List α
  | [] => []
  | .report entry :: calls => (if passes 0 count calls then [entry] else []) ++ passed count calls
  | .beginBuffer :: calls => passed (count + 1) calls
  | .commitBuffer :: calls | .discardBuffer :: calls => passed (count - 1) calls

theorem passes_of_unbuffered (calls : List (Call α)) : passes 0 0 calls = true :=
  passes_iff.2 fun m _ hlt => by omega

/-- What gets through depends on the number of open buffers and the calls as `passes` does. -/
theorem passing_congr {calls calls' : List (Call α)} {inner inner' : Nat}
    (h : ∀ k outer, passes (inner + k) outer calls = passes (inner' + k) outer calls')
    (buffers : List (List α)) : passing calls inner buffers = passing calls' inner' buffers := by
  induction buffers generalizing inner inner' with
  | nil => rfl
  | cons buffer outer ih =>
    have hrest : passing calls (inner + 1) outer = passing calls' (inner' + 1) outer :=
      ih fun k outer => by simpa only [Nat.add_assoc] using h (1 + k) outer
    rw [passing, passing, hrest]
    exact congrArg (fun through => _ ++ if through = true then buffer else []) (h 0 _)

section

variable (calls : List (Call α)) (inner : Nat) (buffers : List (List α))

@[simp] theorem passing_nil : passing ([] : List (Call α)) inner buffers = [] := by
  induction buffers generalizing inner with
  | nil => rfl
  | cons buffer outer ih => simp [passing, ih, passes]

@[simp] theorem passing_report (entry : α) :
    passing (.report entry :: calls) inner buffers = passing calls inner buffers :=
  passing_congr (fun k outer => by rw [passes]) buffers

@[simp] theorem passing_beginBuffer :
    passing (.beginBuffer :: calls) inner buffers = passing calls (inner + 1) buffers :=
  passing_congr (fun k _ => by rw [passes, Nat.add_right_comm]) buffers

@[simp] theorem passing_commitBuffer :
    passing (.commitBuffer :: calls) (inner + 1) buffers = passing calls inner buffers :=
  passing_congr (fun k _ => by rw [Nat.add_right_comm, passes]) buffers

@[simp] theorem passing_discardBuffer :
    passing (.discardBuffer :: calls) (inner + 1) buffers = passing calls inner buffers :=
  passing_congr (fun k _ => by rw [Nat.add_right_comm, passes]) buffers

end

/-- A sink delivers what its buffers hold and what is recorded, as far as it gets through. -/
theorem delivered_runCalls (sink : Sink α) {calls : List (Call α)}
    (h : (openAfter sink.buffers.length calls).isSome = true) :
    (sink.runCalls calls).delivered =
      sink.delivered ++ (passing calls 0 sink.buffers ++ passed sink.buffers.length calls) := by
  induction calls generalizing sink with
  | nil => simp [runCalls, passed]
  | cons call calls ih =>
    obtain ⟨delivered, buffers⟩ := sink
    show ((call.apply ⟨delivered, buffers⟩).runCalls calls).delivered = _
    cases call with
    | report entry =>
      cases buffers with
      | nil =>
        refine (ih ⟨delivered ++ [entry], []⟩ h).trans ?_
        simp [passing, passed, passes_of_unbuffered]
      | cons buffer outer =>
        refine (ih ⟨delivered, (buffer ++ [entry]) :: outer⟩ h).trans ?_
        simp only [passing, passed, passing_report, List.length_cons]
        by_cases hthrough : passes 0 (outer.length + 1) calls = true <;> simp [hthrough, passes]
    | beginBuffer =>
      refine (ih ⟨delivered, [] :: buffers⟩ h).trans ?_
      simp [passing, passed]
    | commitBuffer =>
      cases buffers with
      | nil => cases h
      | cons buffer outer =>
        cases outer with
        | nil =>
          have hsink : Call.apply ⟨delivered, [buffer]⟩ .commitBuffer =
            ⟨delivered ++ buffer, []⟩ := reportAll_of_no_buffer delivered buffer
          rw [hsink, ih _ h]
          simp [passing, passed, passes, passes_of_unbuffered]
        | cons enclosing outer =>
          have hsink : Call.apply ⟨delivered, buffer :: enclosing :: outer⟩ .commitBuffer =
            ⟨delivered, (enclosing ++ buffer) :: outer⟩ :=
              reportAll_of_buffer delivered enclosing outer buffer
          rw [hsink, ih _ h]
          -- Both buffers get through if the enclosing one does.
          simp only [passing, passed, passing_commitBuffer, List.length_cons, Nat.add_sub_cancel]
          by_cases hthrough : passes 0 (outer.length + 1) calls = true <;> simp [hthrough, passes]
    | discardBuffer =>
      cases buffers with
      | nil => cases h
      | cons buffer outer =>
        refine (ih ⟨delivered, outer⟩ h).trans ?_
        simp [passing, passed, passes]

/-! ## What becomes of the entries recorded -/

section

variable {front calls : List (Call α)} {count : Nat} {entry : α}

theorem isDiscarded_iff (h : openAfter 0 front = some count) :
    Recorded.IsDiscarded ⟨front, entry, calls⟩ ↔ ∃ m < count, Discards m calls := by
  constructor
  · rintro ⟨inner, inner', hopened, hclosed, hnested⟩
    rw [WellNested, openAfter_append, Option.bind_eq_some_iff] at hnested
    obtain ⟨m, hm, hinner'⟩ := hnested
    exact ⟨m, (exists_opened_iff h).1 ⟨inner, hopened, hm⟩, inner', hclosed, hinner'⟩
  · rintro ⟨m, hm, inner', hclosed, hinner'⟩
    obtain ⟨inner, hopened, hinner⟩ := (exists_opened_iff h).2 hm
    refine ⟨inner, inner', hopened, hclosed, ?_⟩
    rw [WellNested, openAfter_append, hinner]
    exact hinner'

theorem isHeld_iff (h : openAfter 0 front = some count) :
    Recorded.IsHeld ⟨front, entry, calls⟩ ↔ ∃ m < count, (openAfter m calls).isSome = true := by
  constructor
  · rintro ⟨inner, hopened, hheld⟩
    obtain ⟨n, hn⟩ := Option.isSome_iff_exists.1 hheld
    rw [openAfter_append, Option.bind_eq_some_iff] at hn
    obtain ⟨m, hm, hcalls⟩ := hn
    exact ⟨m, (exists_opened_iff h).1 ⟨inner, hopened, hm⟩, Option.isSome_iff_exists.2 ⟨n, hcalls⟩⟩
  · rintro ⟨m, hm, hcalls⟩
    obtain ⟨inner, hopened, hinner⟩ := (exists_opened_iff h).2 hm
    refine ⟨inner, hopened, ?_⟩
    rw [openAfter_append, hinner]
    exact hcalls

theorem passes_iff_recorded (entry : α) (h : openAfter 0 front = some count) :
    passes 0 count calls = true ↔
      ¬ Recorded.IsDiscarded ⟨front, entry, calls⟩ ∧ ¬ Recorded.IsHeld ⟨front, entry, calls⟩ := by
  rw [passes_iff, isDiscarded_iff h, isHeld_iff h]
  grind

open Classical in
/-- The entries that get through are those that are neither discarded nor held back. -/
theorem passed_eq (hfront : openAfter 0 front = some count)
    (hcalls : (openAfter count calls).isSome = true) :
    passed count calls =
      ((recorded front calls).filter fun r => ¬ r.IsDiscarded ∧ ¬ r.IsHeld).map (·.entry) := by
  induction calls generalizing front count with
  | nil => rfl
  | cons call calls ih =>
    have hnext {count' : Nat} (hcall : openAfter count [call] = some count') :
        openAfter 0 (front ++ [call]) = some count' := by rw [openAfter_append, hfront]; exact hcall
    cases call with
    | report entry =>
      rw [passed, ih (hnext rfl) hcalls, recorded, List.filter_cons]
      simp only [passes_iff_recorded entry hfront, decide_eq_true_eq]
      split <;> simp
    | beginBuffer => exact ih (hnext rfl) hcalls
    | commitBuffer | discardBuffer =>
      cases count with
      | zero => cases hcalls
      | succ count => exact ih (hnext rfl) hcalls

end

/-- What is recorded stands between the calls before it and those after it. -/
theorem of_mem_recorded {before calls : List (Call α)} {r : Recorded α}
    (h : r ∈ recorded before calls) : before ++ calls = r.before ++ .report r.entry :: r.after := by
  induction calls generalizing before with
  | nil => cases h
  | cons call calls ih =>
    cases call with
    | report entry =>
      rcases List.mem_cons.1 h with rfl | h
      · rfl
      · rw [← ih h, List.append_assoc, List.singleton_append]
    | beginBuffer | commitBuffer | discardBuffer =>
      rw [← ih h, List.append_assoc, List.singleton_append]

/-- Buffers that are open around calls stay open. -/
theorem openAfter_add {calls : List (Call α)} {m n : Nat} (h : openAfter m calls = some n)
    (more : Nat) : openAfter (m + more) calls = some (n + more) := by
  fun_induction openAfter m calls with
  | case1 => rw [openAfter, Option.some.inj h]
  | case2 count entry calls ih => exact ih h
  | case3 count calls ih => rw [openAfter, ← ih h, Nat.add_right_comm]
  | case4 | case6 => cases h
  | case5 calls count ih | case7 calls count ih =>
    rw [Nat.succ_add, openAfter]
    exact ih h

/-- Calls that close all the buffers that they open hold nothing back in the end. -/
theorem not_isHeld {calls : List (Call α)} (h : WellNested calls) {r : Recorded α}
    (hr : r ∈ recorded [] calls) : ¬ r.IsHeld := by
  have hcalls : calls = r.before ++ .report r.entry :: r.after := of_mem_recorded hr
  rw [WellNested, hcalls, openAfter_append, Option.bind_eq_some_iff] at h
  obtain ⟨count, hbefore, hafter⟩ := h
  intro hheld
  obtain ⟨m, hlt, hopen⟩ := (isHeld_iff hbefore).1 hheld
  obtain ⟨n, hn⟩ := Option.isSome_iff_exists.1 hopen
  have hleft : openAfter (m + (count - m)) r.after = some (n + (count - m)) := openAfter_add hn _
  rw [Nat.add_sub_cancel' hlt.le] at hleft
  have hzero : n + (count - m) = 0 := Option.some.inj (hleft.symm.trans hafter)
  omega

/-- A sink has as many buffers open as its calls leave open. -/
theorem length_buffers_runCalls (sink : Sink α) {calls : List (Call α)} {count : Nat}
    (h : openAfter sink.buffers.length calls = some count) :
    (sink.runCalls calls).buffers.length = count := by
  induction calls generalizing sink with
  | nil => exact Option.some.inj h
  | cons call calls ih =>
    obtain ⟨delivered, buffers⟩ := sink
    refine ih (call.apply ⟨delivered, buffers⟩) ?_
    cases call with
    | report entry => cases buffers <;> exact h
    | beginBuffer => exact h
    | commitBuffer =>
      cases buffers with
      | nil => cases h
      | cons buffer outer =>
        rwa [Call.apply, commitBuffer, length_buffers_reportAll]
    | discardBuffer =>
      cases buffers with
      | nil => cases h
      | cons buffer outer => exact h

open Classical in
/-- Entries are delivered once, in the order in which they were recorded, and those of discarded
buffers are not delivered.  On the way, neither are those that are still held back, nor are they
counted. -/
theorem entries_delivered_once (already : List α) (calls : List (Call α)) (h : WellNested calls) :
    (⟨already, []⟩ : Sink α).runCalls calls =
        ⟨already ++ ((recorded [] calls).filter fun r => ¬ r.IsDiscarded).map (·.entry), []⟩ ∧
      ∀ first, first <+: calls →
        let delivered := (recorded [] first).filter fun r => ¬ r.IsDiscarded ∧ ¬ r.IsHeld
        ((⟨already, []⟩ : Sink α).runCalls first).delivered =
            already ++ delivered.map (·.entry) ∧
          ((⟨already, []⟩ : Sink α).runCalls first).deliveredCount =
            already.length + delivered.length := by
  have hreceived {first : List (Call α)} (hfirst : first <+: calls) :
      ((⟨already, []⟩ : Sink α).runCalls first).delivered =
        already ++
          ((recorded [] first).filter fun r => ¬ r.IsDiscarded ∧ ¬ r.IsHeld).map (·.entry) := by
    obtain ⟨rest, rfl⟩ := hfirst
    have hopen : (openAfter 0 first).isSome = true := by
      rw [WellNested, openAfter_append] at h
      exact Option.isSome_of_isSome_bind (Option.isSome_of_eq_some h)
    rw [delivered_runCalls ⟨already, []⟩ hopen]
    exact congrArg (already ++ ·) (passed_eq rfl hopen)
  refine ⟨?_, fun first hfirst => ⟨hreceived hfirst, ?_⟩⟩
  · have hbuffers := length_buffers_runCalls (⟨already, []⟩ : Sink α) h
    have hdelivered := hreceived (List.prefix_refl calls)
    generalize (⟨already, []⟩ : Sink α).runCalls calls = sink at hbuffers hdelivered ⊢
    obtain ⟨delivered, buffers⟩ := sink
    obtain rfl : buffers = [] := List.eq_nil_of_length_eq_zero hbuffers
    have hnone : (recorded [] calls).filter (fun r => ¬ r.IsDiscarded ∧ ¬ r.IsHeld) =
        (recorded [] calls).filter fun r => ¬ r.IsDiscarded :=
      List.filter_congr fun r hr => by simp [not_isHeld h hr]
    rw [← hnone, ← hdelivered]
  · simp [deliveredCount, hreceived hfirst]

open Classical in
/-- The second entry was recorded in a buffer that was passed on to one that was discarded. -/
theorem entries_delivered_once_nested :
    let calls : List (Call Nat) := [.beginBuffer, .report 1, .commitBuffer, .beginBuffer,
      .beginBuffer, .report 2, .commitBuffer, .discardBuffer, .report 3]
    WellNested calls ∧ ((⟨[], []⟩ : Sink Nat).runCalls calls).delivered = [1, 3] ∧
      ((recorded [] calls).filter fun r => ¬ r.IsDiscarded).map (·.entry) = [1, 3] := by
  intro calls
  have hnested : WellNested calls := by decide
  have hsink : (⟨[], []⟩ : Sink Nat).runCalls calls = ⟨[1, 3], []⟩ := rfl
  have hdelivered := hsink.symm.trans (entries_delivered_once [] calls hnested).1
  exact ⟨hnested, by rw [hsink], (congrArg Sink.delivered hdelivered).symm⟩

end Sink

end RasterShader
