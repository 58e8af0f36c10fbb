import MakeGraph.Json.Record
import MakeGraph.Proofs.Outcome

/-!
# `Proofs.Json.Described` — which objects a structure is read from

A structure is read from more objects than are ever written for it: members come in any order, some of
them are left out, others are no field at all. `Record.Describes` says what the members have to be, field
by field and whatever their order, and `Record.decode_record_iff` that a structure is read from an object
exactly if its members describe it.

The reader goes through the members and keeps a slot for each field. What a run over members does to the
slots is said field by field too (`Fields.Reads`): a field without a member keeps its slot, and a field
with one member fills its slot, which has to be empty. That makes runs over members compose
(`Fields.reads_cons_iff`), so one step of the reader is enough (`Fields.put?_eq_ok_iff`).

## Contents

* `valuesOf`, `Holds`, `MayHold` — the member of a field
* `Fields.Describes`, `Record.Describes` — the specification
* `Fields.put?_eq_ok_iff`, `Record.foldlM_member_iff` — one member, and all members
* `Fields.complete_iff` — the slots once all members have been read
* `Record.decode_record_iff` — the main result
-/

namespace MakeGraph.Json

open Outcome

/-! ## The member of a field -/

/-- The values of the members with a name. -/
def valuesOf (name : String) (members : List (String × Json)) : List Json :=
  (members.filter fun member => member.1 = name).map (·.2)

theorem valuesOf_cons_self (name : String) (document : Json) (members : List (String × Json)) :
    valuesOf name ((name, document) :: members) = document :: valuesOf name members := by
  simp [valuesOf]

theorem valuesOf_cons_of_ne {name key : String} (h : name ≠ key) (document : Json)
    (members : List (String × Json)) :
    valuesOf name ((key, document) :: members) = valuesOf name members := by
  simp [valuesOf, h.symm]

section Member

variable {α : Type} {decode : Decoder α} {r : Reading} {name : String}
  {members : List (String × Json)} {slot later : Option α}

/-- **A field is written once**, and what is written decodes to its value. -/
def Holds (decode : Decoder α) (r : Reading) (members : List (String × Json)) (name : String)
    (value : α) : Prop :=
  ∃ document, valuesOf name members = [document] ∧ decode r document = .ok value

/-- **A field is written once or left out**, and then it has its usual value. -/
def MayHold (decode : Decoder α) (r : Reading) (members : List (String × Json)) (name : String)
    (usual value : α) : Prop :=
  (valuesOf name members = [] ∧ value = usual) ∨ Holds decode r members name value

/-- The slot of a field before and after a run over members. -/
def SlotAfter (decode : Decoder α) (r : Reading) (members : List (String × Json)) (name : String)
    (slot later : Option α) : Prop :=
  (valuesOf name members = [] ∧ later = slot) ∨
    slot = none ∧ ∃ value, Holds decode r members name value ∧ later = some value

/-- No member changes no slot. -/
theorem slotAfter_nil_iff : SlotAfter decode r [] name slot later ↔ later = slot := by
  simp [SlotAfter, Holds, valuesOf]

/-- The member of another field changes nothing. -/
theorem slotAfter_cons_of_ne {key : String} (h : name ≠ key) (document : Json) :
    SlotAfter decode r ((key, document) :: members) name slot later ↔
      SlotAfter decode r members name slot later := by
  simp only [SlotAfter, Holds, valuesOf_cons_of_ne h]

/-- The member of the field is its only one, and fills the slot. -/
theorem slotAfter_cons_self {document : Json} :
    SlotAfter decode r ((name, document) :: members) name slot later ↔
      slot = none ∧ valuesOf name members = [] ∧
        ∃ value, decode r document = .ok value ∧ later = some value := by
  simp only [SlotAfter, Holds, valuesOf_cons_self, List.cons.injEq, reduceCtorEq, false_and, false_or]
  constructor
  · rintro ⟨hslot, value, ⟨_, ⟨rfl, hvalues⟩, hvalue⟩, rfl⟩
    exact ⟨hslot, hvalues, value, hvalue, rfl⟩
  · rintro ⟨hslot, hvalues, value, hvalue, rfl⟩
    exact ⟨hslot, value, ⟨document, ⟨rfl, hvalues⟩, hvalue⟩, rfl⟩

/-- A run over members is one over the first and one over the others. -/
theorem slotAfter_cons_iff {member : String × Json} :
    SlotAfter decode r (member :: members) name slot later ↔
      ∃ next, SlotAfter decode r [member] name slot next ∧
        SlotAfter decode r members name next later := by
  obtain ⟨key, document⟩ := member
  by_cases hkey : name = key
  · subst hkey
    simp only [slotAfter_cons_self]
    constructor
    · rintro ⟨hslot, hvalues, value, hvalue, rfl⟩
      exact ⟨some value, ⟨hslot, rfl, value, hvalue, rfl⟩, .inl ⟨hvalues, rfl⟩⟩
    · rintro ⟨next, ⟨hslot, -, value, hvalue, rfl⟩, ⟨hvalues, rfl⟩ | ⟨hnone, -⟩⟩
      · exact ⟨hslot, hvalues, value, hvalue, rfl⟩
      · cases hnone
  · simp only [slotAfter_cons_of_ne hkey, slotAfter_nil_iff, exists_eq_left]

end Member

/-! ## Fields -/

namespace Fields

variable {types : List Type} {r : Reading} {members : List (String × Json)}

/-- **Members describe the values of fields**: one for each field that must be written, and at most one
    for each that has a usual value. -/
def Describes (r : Reading) (members : List (String × Json)) :
    {types : List Type} → Fields types → Values types → Prop
  | _, done, () => True
  | _, required name decode rest, (value, values) =>
      Holds decode r members name value ∧ rest.Describes r members values
  | _, withDefault name decode usual rest, (value, values) =>
      MayHold decode r members name usual value ∧ rest.Describes r members values

/-- The slots of fields before and after a run over members. -/
def Reads (r : Reading) (members : List (String × Json)) :
    {types : List Type} → Fields types → Slots types → Slots types → Prop
  | _, done, (), () => True
  | _, required name decode rest, (slot, slots), (later, laters)
  | _, withDefault name decode _ rest, (slot, slots), (later, laters) =>
      SlotAfter decode r members name slot later ∧ rest.Reads r members slots laters

/-- No member changes no slot. -/
theorem reads_nil_iff {fields : Fields types} {slots laters : Slots types} :
    fields.Reads r [] slots laters ↔ laters = slots := by
  induction fields with
  | done => exact iff_of_true trivial rfl
  | required name decode rest ih | withDefault name decode _ rest ih =>
      obtain ⟨slot, slots⟩ := slots
      obtain ⟨later, laters⟩ := laters
      rw [Reads, slotAfter_nil_iff, ih]
      exact Prod.mk.injEq .. ▸ Iff.rfl

/-- A run over members is one over the first and one over the others. -/
theorem reads_cons_iff {fields : Fields types} {member : String × Json} {slots laters : Slots types} :
    fields.Reads r (member :: members) slots laters ↔
      ∃ next, fields.Reads r [member] slots next ∧ fields.Reads r members next laters := by
  induction fields with
  | done => exact iff_of_true trivial ⟨(), trivial, trivial⟩
  | required name decode rest ih | withDefault name decode _ rest ih =>
      obtain ⟨slot, slots⟩ := slots
      obtain ⟨later, laters⟩ := laters
      simp only [Reads]
      rw [slotAfter_cons_iff, ih]
      constructor
      · rintro ⟨⟨next, hfirst, hothers⟩, nexts, hfirsts, hrest⟩
        exact ⟨(next, nexts), ⟨hfirst, hfirsts⟩, hothers, hrest⟩
      · rintro ⟨⟨next, nexts⟩, ⟨hfirst, hfirsts⟩, hothers, hrest⟩
        exact ⟨⟨next, hfirst, hothers⟩, nexts, hfirsts, hrest⟩

/-- A member that is no field changes no slot. -/
theorem reads_singleton_of_not_mem {fields : Fields types} {key : String} (h : key ∉ fields.names)
    {document : Json} {slots laters : Slots types} :
    fields.Reads r [(key, document)] slots laters ↔ laters = slots := by
  have hnone : fields.Reads r [(key, document)] slots laters ↔ fields.Reads r [] slots laters := by
    induction fields with
    | done => exact Iff.rfl
    | required name decode rest ih | withDefault name decode _ rest ih =>
        obtain ⟨hname, hrest⟩ := not_or.mp (mt List.mem_cons.mpr h)
        obtain ⟨slot, slots⟩ := slots
        obtain ⟨later, laters⟩ := laters
        simp only [Reads, slotAfter_cons_of_ne (Ne.symm hname), ih hrest]
  exact hnone.trans reads_nil_iff

/-- A slot is filled if it is empty and the document decodes. -/
theorem fill_eq_ok_iff {α : Type} {name : String} {decode : Decoder α} {document : Json}
    {slot : Option α} {value : α} :
    fill name decode r document slot = .ok value ↔ slot = none ∧ decode r document = .ok value := by
  cases slot with
  | none => exact (and_iff_right rfl).symm
  | some old => exact iff_of_false nofun fun h => nomatch h.1

/-- A member that is put into a slot leaves those behind it as they are. -/
theorem front_eq_ok_iff {σ τ : Type} {read : Except Issue σ} {later : Option σ} {slots laters : τ} :
    some (do return (some (← read), slots) : Except Issue (Option σ × τ)) =
        some (.ok (later, laters)) ↔
      (∃ value, read = .ok value ∧ later = some value) ∧ laters = slots := by
  simp only [Option.some.injEq, bind_eq_ok_iff, pure_eq_ok_iff, Prod.mk.injEq]
  constructor
  · rintro ⟨value, hvalue, rfl, rfl⟩
    exact ⟨⟨value, hvalue, rfl⟩, rfl⟩
  · rintro ⟨⟨value, hvalue, rfl⟩, rfl⟩
    exact ⟨value, hvalue, rfl, rfl⟩

/-- A member that is put behind a slot leaves this slot as it is. -/
theorem behind_eq_ok_iff {σ τ : Type} {read? : Option (Except Issue τ)} {slot later : σ}
    {laters : τ} :
    (read?.map fun read => (do return (slot, ← read) : Except Issue (σ × τ))) =
        some (.ok (later, laters)) ↔ later = slot ∧ read? = some (.ok laters) := by
  rw [Option.map_eq_some_iff]
  simp only [bind_eq_ok_iff, pure_eq_ok_iff, Prod.mk.injEq]
  constructor
  · rintro ⟨_, hread, laters, rfl, rfl, rfl⟩
    exact ⟨rfl, hread⟩
  · rintro ⟨rfl, hread⟩
    exact ⟨_, hread, laters, rfl, rfl, rfl⟩

/-- The reader finds a field by its name. -/
theorem put?_eq_none_iff {fields : Fields types} {key : String} {document : Json}
    {slots : Slots types} : fields.put? r key document slots = none ↔ key ∉ fields.names := by
  induction fields with
  | done => simp [put?, names]
  | required name decode rest ih | withDefault name decode _ rest ih =>
      obtain ⟨slot, slots⟩ := slots
      rw [put?, names, List.mem_cons, not_or]
      by_cases hkey : name = key
      · simp [hkey]
      · rw [if_neg hkey, and_iff_right (Ne.symm hkey), ← ih]
        exact Option.map_eq_none_iff

/-- **One step of the reader** does what a run over one member does. -/
theorem put?_eq_ok_iff {fields : Fields types} (hnames : fields.names.Nodup) {key : String}
    {document : Json} {slots laters : Slots types} :
    fields.put? r key document slots = some (.ok laters) ↔
      key ∈ fields.names ∧ fields.Reads r [(key, document)] slots laters := by
  induction fields with
  | done => simp [put?, names]
  | required name decode rest ih | withDefault name decode _ rest ih =>
      obtain ⟨slot, slots⟩ := slots
      obtain ⟨later, laters⟩ := laters
      obtain ⟨hname, hrest⟩ := List.nodup_cons.mp hnames
      rw [put?, Reads]
      by_cases hkey : name = key
      · subst hkey
        rw [if_pos rfl, slotAfter_cons_self, reads_singleton_of_not_mem hname, names]
        refine front_eq_ok_iff.trans ?_
        simp only [fill_eq_ok_iff, and_assoc, exists_and_left, List.mem_cons_self, true_and]
        exact and_congr_right fun _ => (and_iff_right rfl).symm
      · rw [if_neg hkey, slotAfter_cons_of_ne hkey, slotAfter_nil_iff, names, List.mem_cons,
          or_iff_right (Ne.symm hkey)]
        refine behind_eq_ok_iff.trans ?_
        rw [ih hrest]
        exact and_left_comm

/-- **The slots once all members have been read** make the values that the members describe. -/
theorem complete_iff {fields : Fields types} {values : Values types} :
    (∃ slots, fields.Reads r members fields.blank slots ∧ fields.complete slots = .ok values) ↔
      fields.Describes r members values := by
  induction fields with
  | done => exact iff_of_true ⟨(), trivial, rfl⟩ trivial
  | required name decode rest ih =>
      obtain ⟨value, values⟩ := values
      rw [Describes, ← ih]
      constructor
      · rintro ⟨⟨slot, slots⟩, ⟨hslot, hslots⟩, hcomplete⟩
        rcases hslot with ⟨-, rfl⟩ | ⟨-, found, hfound, rfl⟩
        · cases hcomplete
        · obtain ⟨others, hothers, heq⟩ := bind_eq_ok_iff.mp hcomplete
          obtain ⟨rfl, rfl⟩ := Prod.mk.inj (pure_eq_ok_iff.mp heq)
          exact ⟨hfound, slots, hslots, hothers⟩
      · rintro ⟨hvalue, slots, hslots, hcomplete⟩
        exact ⟨(some value, slots), ⟨.inr ⟨rfl, value, hvalue, rfl⟩, hslots⟩,
          bind_eq_ok_iff.mpr ⟨values, hcomplete, rfl⟩⟩
  | withDefault name decode usual rest ih =>
      obtain ⟨value, values⟩ := values
      rw [Describes, ← ih]
      constructor
      · rintro ⟨⟨slot, slots⟩, ⟨hslot, hslots⟩, hcomplete⟩
        obtain ⟨others, hothers, heq⟩ := bind_eq_ok_iff.mp hcomplete
        obtain ⟨rfl, rfl⟩ := Prod.mk.inj (pure_eq_ok_iff.mp heq)
        refine ⟨?_, slots, hslots, hothers⟩
        rcases hslot with ⟨hnone, rfl⟩ | ⟨-, found, hfound, rfl⟩
        · exact .inl ⟨hnone, rfl⟩
        · exact .inr hfound
      · rintro ⟨hvalue, slots, hslots, hcomplete⟩
        rcases hvalue with ⟨hnone, rfl⟩ | hvalue
        · exact ⟨(none, slots), ⟨.inl ⟨hnone, rfl⟩, hslots⟩,
            bind_eq_ok_iff.mpr ⟨values, hcomplete, rfl⟩⟩
        · exact ⟨(some value, slots), ⟨.inr ⟨rfl, value, hvalue, rfl⟩, hslots⟩,
            bind_eq_ok_iff.mpr ⟨values, hcomplete, rfl⟩⟩

end Fields

/-! ## Structures -/

namespace Record

variable {types : List Type} {α : Type} {record : Record types α} {r : Reading}
  {members : List (String × Json)}

/-- **Members describe a structure**: they describe the values of its fields, and those that are no field
    can be passed over. -/
structure Describes (record : Record types α) (r : Reading) (members : List (String × Json))
    (values : Values types) : Prop where
  fields : record.fields.Describes r members values
  others : ∀ member ∈ members, member.1 ∉ record.fields.names →
    record.lenient = true ∧ r.canSkip member.2 = true

/-- One member is read if it is a field that has no value yet, or none at all. -/
theorem member_eq_ok_iff (hnames : record.fields.names.Nodup) {key : String} {document : Json}
    {slots laters : Slots types} :
    record.member r slots key document = .ok laters ↔
      record.fields.Reads r [(key, document)] slots laters ∧
        (key ∉ record.fields.names → record.lenient = true ∧ r.canSkip document = true) := by
  unfold member
  cases hput : record.fields.put? r key document slots with
  | none =>
      have hkey := Fields.put?_eq_none_iff.mp hput
      rw [Fields.reads_singleton_of_not_mem hkey, eq_comm (a := laters)]
      simp only [hkey, not_false_eq_true, true_implies]
      cases record.lenient with
      | false => exact iff_of_false nofun fun h => nomatch h.2.1
      | true =>
          cases r.canSkip document with
          | false => exact iff_of_false nofun fun h => nomatch h.2.2
          | true => exact pure_eq_ok_iff.trans (and_iff_left ⟨rfl, rfl⟩).symm
  | some read =>
      have hkey : key ∈ record.fields.names :=
        Decidable.not_not.mp fun hkey => by
          rw [Fields.put?_eq_none_iff.mpr hkey] at hput
          cases hput
      have hreads : record.fields.put? r key document slots = some (.ok laters) ↔
          key ∈ record.fields.names ∧ record.fields.Reads r [(key, document)] slots laters :=
        Fields.put?_eq_ok_iff hnames
      rw [hput, Option.some.injEq, and_iff_right hkey] at hreads
      exact hreads.trans (and_iff_left fun hother => absurd hkey hother).symm

/-- **A run of the reader** over members. -/
theorem foldlM_member_iff (hnames : record.fields.names.Nodup) {slots laters : Slots types} :
    members.foldlM (fun slots (key, document) => record.member r slots key document) slots =
        .ok laters ↔
      record.fields.Reads r members slots laters ∧
        ∀ member ∈ members, member.1 ∉ record.fields.names →
          record.lenient = true ∧ r.canSkip member.2 = true := by
  induction members generalizing slots with
  | nil =>
      rw [List.foldlM_nil, pure_eq_ok_iff, Fields.reads_nil_iff, eq_comm]
      exact (and_iff_left nofun).symm
  | cons member members ih =>
      obtain ⟨key, document⟩ := member
      rw [List.foldlM_cons, bind_eq_ok_iff, List.forall_mem_cons, Fields.reads_cons_iff]
      simp only [member_eq_ok_iff hnames, ih]
      constructor
      · rintro ⟨next, ⟨hfirst, hskip⟩, hothers, hskips⟩
        exact ⟨⟨next, hfirst, hothers⟩, hskip, hskips⟩
      · rintro ⟨⟨next, hfirst, hothers⟩, hskip, hskips⟩
        exact ⟨next, ⟨hfirst, hskip⟩, hothers, hskips⟩

/-- **A structure is read from an object** exactly if the members of the object describe it. -/
theorem decode_record_iff {outer : Reading} (hnames : record.fields.names.Nodup)
    (henter : outer.enter = .ok r) {x : α} :
    record.decode outer (.record members) = .ok x ↔
      ∃ values, record.Describes r members values ∧ record.build values = x := by
  have hdecode : record.decode outer (.record members) = (outer.enter >>= fun r =>
      members.foldlM (fun slots (key, document) => record.member r slots key document)
        record.fields.blank >>= fun slots => ensure true >>= fun _ =>
      record.fields.complete slots >>= fun values => pure (record.build values)) := rfl
  rw [hdecode, henter, bind_ok]
  simp only [bind_eq_ok_iff, pure_eq_ok_iff, foldlM_member_iff hnames]
  constructor
  · rintro ⟨slots, ⟨hreads, hothers⟩, -, -, values, hcomplete, rfl⟩
    exact ⟨values, ⟨Fields.complete_iff.mp ⟨slots, hreads, hcomplete⟩, hothers⟩, rfl⟩
  · rintro ⟨values, ⟨hfields, hothers⟩, rfl⟩
    obtain ⟨slots, hreads, hcomplete⟩ := Fields.complete_iff.mpr hfields
    exact ⟨slots, ⟨hreads, hothers⟩, (), rfl, values, hcomplete, rfl⟩

end Record

end MakeGraph.Json
