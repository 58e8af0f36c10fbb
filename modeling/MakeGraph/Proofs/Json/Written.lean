import MakeGraph.Json.Record
import MakeGraph.Proofs.Json.RoundTrip
import MakeGraph.Proofs.Outcome

/-!
# `Proofs.Json.Written` — structures written member by member

A structure is `Written` when its members stand in the order of its fields, one for each field, and
each decodes to the value of its field. Such an object decodes to the structure (`decode_record`),
since no two fields have the same name: each member finds its own slot, and in the end all slots are
filled.
-/

namespace MakeGraph.Json

open Outcome

/-! ## Filling slots -/

namespace Fields

variable {types : List Type} {r : Reading}

/-- Members that stand in the order of the fields, each decoding to the value of its field. -/
def Written (r : Reading) : {types : List Type} → Fields types → Values types →
    List (String × Json) → Prop
  | _, done, _, members => members = []
  | _, required name decode rest, (value, values), members
  | _, withDefault name decode _ rest, (value, values), members =>
      ∃ document others, members = (name, document) :: others ∧ decode r document = .ok value ∧
        Written r rest values others

/-- The slots with all values read. -/
def full : {types : List Type} → Fields types → Values types → Slots types
  | _, done, () => ()
  | _, required _ _ rest, (value, values) | _, withDefault _ _ _ rest, (value, values) =>
      (some value, rest.full values)

/-- Members that put their values into slots, one after the other. -/
def Fills (r : Reading) (fields : Fields types) (slots : Slots types) :
    List (String × Json) → Slots types → Prop
  | [], filled => slots = filled
  | (key, document) :: members, filled =>
      ∃ next, fields.put? r key document slots = some (.ok next) ∧
        Fills r fields next members filled

theorem complete_full (fields : Fields types) (values : Values types) :
    fields.complete (fields.full values) = .ok values := by
  induction fields with
  | done => rfl
  | required name decode rest ih =>
      obtain ⟨value, values⟩ := values
      simp only [full, complete, ih]
      rfl
  | withDefault name decode default rest ih =>
      obtain ⟨value, values⟩ := values
      simp only [full, complete, ih]
      rfl

theorem names_of_written {fields : Fields types} {values : Values types}
    {members : List (String × Json)} (h : fields.Written r values members) :
    members.map (·.1) = fields.names := by
  induction fields generalizing members with
  | done =>
      rw [Written] at h
      rw [h]
      rfl
  | required name decode rest ih =>
      obtain ⟨document, others, rfl, -, hothers⟩ := h
      rw [List.map_cons, ih hothers, names]
  | withDefault name decode default rest ih =>
      obtain ⟨document, others, rfl, -, hothers⟩ := h
      rw [List.map_cons, ih hothers, names]

/-- Members with other names than the first field pass its slot by. -/
theorem Fills.behind {α : Type} {name : String} {fields : Fields (α :: types)}
    {rest : Fields types} {slot : Option α}
    (hother : ∀ key document slots, name ≠ key → fields.put? r key document (slot, slots) =
      (rest.put? r key document slots).map fun read => do return (slot, ← read))
    {slots filled : Slots types} {members : List (String × Json)}
    (h : rest.Fills r slots members filled) (hname : name ∉ members.map (·.1)) :
    fields.Fills r (slot, slots) members (slot, filled) := by
  induction members generalizing slots with
  | nil => exact congrArg (slot, ·) h
  | cons member members ih =>
      obtain ⟨key, document⟩ := member
      obtain ⟨next, hput, hrest⟩ := h
      simp only [List.map_cons, List.mem_cons, not_or] at hname
      refine ⟨(slot, next), ?_, ih hrest hname.2⟩
      rw [hother key document slots hname.1, hput]
      rfl

/-- **Written members** fill all slots. -/
theorem Written.fills {fields : Fields types} {values : Values types}
    {members : List (String × Json)} (h : fields.Written r values members)
    (hnames : fields.names.Nodup) : fields.Fills r fields.blank members (fields.full values) := by
  induction fields generalizing members with
  | done =>
      rw [Written] at h
      rw [h]
      rfl
  | required name decode rest ih =>
      obtain ⟨value, values⟩ := values
      obtain ⟨document, others, rfl, hvalue, hothers⟩ := h
      obtain ⟨hname, hrest⟩ := List.nodup_cons.mp hnames
      rw [← names_of_written hothers] at hname
      have hother : ∀ key document slots, name ≠ key →
          put? r key document (required name decode rest) (some value, slots) =
            (rest.put? r key document slots).map fun read => do return (some value, ← read) := by
        intro key document slots hne
        rw [put?, if_neg hne]
      refine ⟨(some value, rest.blank), ?_, (ih hothers hrest).behind hother hname⟩
      simp [blank, put?, fill, hvalue]
      rfl
  | withDefault name decode default rest ih =>
      obtain ⟨value, values⟩ := values
      obtain ⟨document, others, rfl, hvalue, hothers⟩ := h
      obtain ⟨hname, hrest⟩ := List.nodup_cons.mp hnames
      rw [← names_of_written hothers] at hname
      have hother : ∀ key document slots, name ≠ key →
          put? r key document (withDefault name decode default rest) (some value, slots) =
            (rest.put? r key document slots).map fun read => do return (some value, ← read) := by
        intro key document slots hne
        rw [put?, if_neg hne]
      refine ⟨(some value, rest.blank), ?_, (ih hothers hrest).behind hother hname⟩
      simp [blank, put?, fill, hvalue]
      rfl

end Fields

/-! ## Structures -/

namespace Record

variable {types : List Type} {α : Type} {record : Record types α} {r : Reading}

/-- Members that fill slots are read one after the other. -/
theorem foldlM_member {slots filled : Slots types} {members : List (String × Json)}
    (h : record.fields.Fills r slots members filled) :
    members.foldlM (fun slots (key, document) => record.member r slots key document) slots =
      .ok filled := by
  induction members generalizing slots with
  | nil => exact congrArg Except.ok h
  | cons member members ih =>
      obtain ⟨key, document⟩ := member
      obtain ⟨next, hput, hrest⟩ := h
      rw [List.foldlM_cons, bind_eq_ok_iff]
      refine ⟨next, ?_, ih hrest⟩
      show record.member r slots key document = _
      rw [member, hput]

/-- **A written structure** decodes to its values, if there is room for its bracket. -/
theorem decode_record {outer : Reading} {values : Values types} {members : List (String × Json)}
    (h : record.fields.Written r values members) (hnames : record.fields.names.Nodup)
    (henter : outer.enter = .ok r) :
    record.decode outer (.record members) = .ok (record.build values) := by
  have hread := foldlM_member (h.fills hnames)
  show (outer.enter >>= fun r =>
    members.foldlM (fun slots (key, document) => record.member r slots key document)
      record.fields.blank >>= fun slots => ensure true >>= fun _ =>
    record.fields.complete slots >>= fun values => pure (record.build values)) = _
  rw [henter, bind_ok, hread, bind_ok, ensure, if_pos rfl, bind_ok, Fields.complete_full, bind_ok]
  rfl

end Record

/-! ## Lists -/

/-- **A list** decodes item by item, if there is room for its bracket. -/
theorem Decoder.list_map {α : Type} {decode : Decoder α} {encode : α → Json} {outer r : Reading}
    (henter : outer.enter = .ok r) {items : List α}
    (h : ∀ item ∈ items, decode r (encode item) = .ok item) :
    Decoder.list decode outer (.list (items.map encode)) = .ok items := by
  have hitems : (items.map encode).mapM (decode r) = .ok items := by
    clear henter
    induction items with
    | nil => rfl
    | cons item items ih =>
        obtain ⟨hitem, hrest⟩ := List.forall_mem_cons.mp h
        rw [List.map_cons, List.mapM_cons, hitem, ih hrest]
        rfl
  show (outer.enter >>= fun r => (items.map encode).mapM (decode r) >>= fun values =>
    ensure true >>= fun _ => .ok values) = _
  rw [henter, bind_ok, hitems]
  rfl

/-- A list of plain documents is plain. -/
theorem plain_list_map {α : Type} {encode : α → Json} {items : List α}
    (h : ∀ item ∈ items, Plain (encode item)) : Plain (.list (items.map encode)) := by
  refine .list fun document hdocument => ?_
  obtain ⟨item, hitem, rfl⟩ := List.mem_map.mp hdocument
  exact h item hitem

end MakeGraph.Json
