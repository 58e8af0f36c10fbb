import MakeGraph.Proofs.Json.Written
import MakeGraph.Proofs.Table

/-!
# `Proofs.Json.Faithful` — decoders that read back what they gave

A decoder accepts more than is ever written: members in any order, arrays for objects, keys that stand
twice. So not every value can be written and read back, but every value that the decoder ever gave
(`Gives`) can. A decoder is `Faithful` to an encoding when such a value is written as a plain document
from which the decoder gives the value again, in every way of reading that has room for the document.

Faithfulness goes from the parts to the whole, for every shape that documents have: `Faithful.list`,
`Faithful.table`, `Faithful.optional`, `Faithful.tagged`, and `Record.faithful` for objects with known
members.

## Contents

* `nesting`, `Plain.fits_iff` — how much room a document needs
* `Gives`, `Restores`, `Faithful` — what is read back
* `faithful_oneOf`, `Faithful.list`, `Faithful.table`, `Faithful.optional` — shapes
* `Faithful.tagged` — objects whose `type` says what they are
* `Record.faithful` — objects with known members
-/

namespace MakeGraph.Json

open Outcome

/-! ## Room -/

mutual

/-- How many brackets of a document are open inside each other. -/
def nesting : Json → Nat
  | array items _ => nestingItems items + 1
  | object members _ => nestingMembers members + 1
  | _ => 0

/-- How deep the deepest of some items is. -/
def nestingItems : List Json → Nat
  | [] => 0
  | item :: items => max (nesting item) (nestingItems items)

/-- How deep the deepest of some values is. -/
def nestingMembers : List (String × Json) → Nat
  | [] => 0
  | (_, value) :: members => max (nesting value) (nestingMembers members)

end

section Room

variable {room : Nat} {items : List Json} {members : List (String × Json)}

theorem fitsItems_iff : fitsItems room items = true ↔ ∀ item ∈ items, item.fits room = true := by
  induction items with
  | nil => simp [fitsItems]
  | cons item items ih => rw [fitsItems, Bool.and_eq_true, ih, List.forall_mem_cons]

theorem fitsMembers_iff :
    fitsMembers room members = true ↔ ∀ member ∈ members, member.2.fits room = true := by
  induction members with
  | nil => simp [fitsMembers]
  | cons member members ih => rw [fitsMembers, Bool.and_eq_true, ih, List.forall_mem_cons]

theorem nestingItems_le_iff : nestingItems items ≤ room ↔ ∀ item ∈ items, item.nesting ≤ room := by
  induction items with
  | nil => simp [nestingItems]
  | cons item items ih => rw [nestingItems, Nat.max_le, ih, List.forall_mem_cons]

theorem nestingMembers_le_iff :
    nestingMembers members ≤ room ↔ ∀ member ∈ members, member.2.nesting ≤ room := by
  induction members with
  | nil => simp [nestingMembers]
  | cons member members ih => rw [nestingMembers, Nat.max_le, ih, List.forall_mem_cons]

/-- **A plain document fits** where there is room for its brackets. -/
theorem Plain.fits_iff {document : Json} (h : Plain document) :
    document.fits room = true ↔ document.nesting ≤ room := by
  induction h generalizing room with
  | null => simp [fits, nesting]
  | bool value => simp [fits, nesting]
  | string text => simp [fits, nesting]
  -- a bracket takes one of the room, and what is inside has the rest
  | list hitems ih =>
      rw [Json.list, nesting]
      cases room with
      | zero => simp [fits]
      | succ room =>
          rw [fits, Bool.true_and, fitsItems_iff, Nat.succ_le_succ_iff, nestingItems_le_iff]
          exact forall_congr' fun item => forall_congr' fun hitem => ih item hitem
  | record hmembers ih =>
      rw [Json.record, nesting]
      cases room with
      | zero => simp [fits]
      | succ room =>
          rw [fits, decide_eq_true rfl, Bool.true_and, fitsMembers_iff, Nat.succ_le_succ_iff,
            nestingMembers_le_iff]
          exact forall_congr' fun member => forall_congr' fun hmember => ih member hmember

/-- **Inside a list** that can be read, each item can be read. -/
theorem Reading.enter_list {r : Reading} (h : r.canRead (list items) = true) :
    ∃ inner, r.enter = .ok inner ∧ ∀ item ∈ items, inner.canRead item = true := by
  cases r with
  | stream room =>
      cases room with
      | zero => cases h
      | succ room =>
          have hfits : (true && fitsItems room items) = true := h
          rw [Bool.true_and, fitsItems_iff] at hfits
          exact ⟨.stream room, rfl, hfits⟩
  | whole => exact ⟨.whole, rfl, fun _ _ => rfl⟩
  | loaded => exact ⟨.loaded, rfl, fun _ _ => rfl⟩

/-- **Inside an object** that can be read, the value of each member can be read. -/
theorem Reading.enter_record {r : Reading} (h : r.canRead (record members) = true) :
    ∃ inner, r.enter = .ok inner ∧ ∀ member ∈ members, inner.canRead member.2 = true := by
  cases r with
  | stream room =>
      cases room with
      | zero => cases h
      | succ room =>
          have hfits : (true && fitsMembers room members) = true := h
          rw [Bool.true_and, fitsMembers_iff] at hfits
          exact ⟨.stream room, rfl, hfits⟩
  | whole => exact ⟨.whole, rfl, fun _ _ => rfl⟩
  | loaded => exact ⟨.loaded, rfl, fun _ _ => rfl⟩

end Room

/-! ## What is read back -/

/-- **A decoder gives a value** for some document, read in some way. -/
def Gives {α : Type} (decode : Decoder α) (x : α) : Prop :=
  ∃ r document, decode r document = .ok x

/-- **A document restores a value** however it is read, if there is room for it. -/
def Restores {α : Type} (decode : Decoder α) (document : Json) (x : α) : Prop :=
  ∀ r : Reading, r.canRead document = true → decode r document = .ok x

/-- **A decoder is faithful to an encoding**: it reads back every value that it ever gave. -/
def Faithful {α : Type} (decode : Decoder α) (encode : α → Json) : Prop :=
  ∀ x, Gives decode x → Plain (encode x) ∧ Restores decode (encode x) x

section Shapes

variable {α : Type} {decode : Decoder α} {encode : α → Json}

theorem unexpected_ne_ok (wanted : String) (document : Json) (x : α) :
    (unexpected wanted document : Except Issue α) ≠ .ok x := by
  unfold unexpected
  split
  · exact nofun
  · exact nofun

theorem faithful_text : Faithful Decoder.text .string :=
  fun text _ => ⟨.string text, fun _ _ => rfl⟩

theorem faithful_flag : Faithful Decoder.flag .bool :=
  fun value _ => ⟨.bool value, fun _ _ => rfl⟩

/-- **Names with a meaning**, where every meaning has its name. -/
theorem faithful_oneOf {names : List (String × α)} {name : α → String}
    (h : ∀ x, Decoder.lookup names (name x) = .ok x) :
    Faithful (Decoder.oneOf names) fun x => .string (name x) :=
  fun x _ => ⟨.string (name x), fun _ _ => h x⟩

/-! ### Lists -/

/-- A list is given item by item. -/
theorem gives_list {xs : List α} (h : Gives (Decoder.list decode) xs) : ∀ x ∈ xs, Gives decode x := by
  obtain ⟨r, document, h⟩ := h
  unfold Decoder.list at h
  split at h
  · next r items closed =>
      simp only [bind_eq_ok_iff] at h
      obtain ⟨inner, -, values, hvalues, -, -, h⟩ := h
      obtain rfl := Except.ok.inj h
      intro x hx
      obtain ⟨item, -, hitem⟩ := exists_of_mem_mapM hvalues x hx
      exact ⟨inner, item, hitem⟩
  · exact absurd h (unexpected_ne_ok _ _ _)

/-- **Lists** of what is read back are read back. -/
theorem Faithful.list (h : Faithful decode encode) :
    Faithful (Decoder.list decode) fun xs => .list (xs.map encode) := by
  intro xs hxs
  have hitems := gives_list hxs
  refine ⟨plain_list_map fun x hx => (h x (hitems x hx)).1, fun r hr => ?_⟩
  obtain ⟨inner, henter, hread⟩ := Reading.enter_list hr
  refine Decoder.list_map henter fun x hx => ?_
  exact (h x (hitems x hx)).2 inner (hread _ (List.mem_map_of_mem hx))

/-! ### Tables -/

/-- A table is given entry by entry, and has every key once. -/
theorem gives_table {t : Table String α} (h : Gives (Decoder.table decode) t) :
    t.keys.Nodup ∧ ∀ entry ∈ t, Gives decode entry.2 := by
  obtain ⟨r, document, h⟩ := h
  unfold Decoder.table at h
  split at h
  · next r members extent =>
      simp only [bind_eq_ok_iff] at h
      obtain ⟨inner, -, entries, hentries, -, -, h⟩ := h
      obtain rfl := Except.ok.inj h
      refine foldlM_invariant (P := fun t : Table String α =>
        t.keys.Nodup ∧ ∀ entry ∈ t, Gives decode entry.2) ?_ hentries ⟨List.nodup_nil, nofun⟩
      rintro read ⟨key, document⟩ next hnext ⟨hnodup, hread⟩
      simp only [bind_eq_ok_iff, pure_eq_ok_iff] at hnext
      obtain ⟨value, hvalue, rfl⟩ := hnext
      refine ⟨Table.nodup_keys_insert hnodup key value, fun entry hentry => ?_⟩
      rcases Table.mem_insert hentry with rfl | hentry
      · exact ⟨inner, document, hvalue⟩
      · exact hread entry hentry
  · exact absurd h (unexpected_ne_ok _ _ _)

/-- Entries with new keys are put behind those that were read, by induction on them. -/
theorem foldlM_insert {r : Reading} {entries read : Table String α}
    (h : ∀ entry ∈ entries, decode r (encode entry.2) = .ok entry.2)
    (hnodup : (read.keys ++ entries.keys).Nodup) :
    (entries.map fun entry => (entry.1, encode entry.2)).foldlM
        (fun (read : Table String α) (key, document) =>
          return read.insert key (← decode r document)) read = .ok (read ++ entries) := by
  induction entries generalizing read with
  | nil => exact congrArg Except.ok (List.append_nil read).symm
  | cons entry entries ih =>
      obtain ⟨hentry, hentries⟩ := List.forall_mem_cons.mp h
      have hnew : entry.1 ∉ read.keys := fun hmem =>
        (List.nodup_append.mp hnodup).2.2 _ hmem _ List.mem_cons_self rfl
      have hkeys : Table.keys (read ++ [entry]) = read.keys ++ [entry.1] :=
        List.map_append
      rw [List.map_cons, List.foldlM_cons]
      simp only [hentry, bind_ok, Table.insert_of_not_mem hnew]
      refine (ih hentries ?_).trans (by rw [List.append_assoc]; rfl)
      rw [hkeys, List.append_assoc]
      exact hnodup

/-- **Tables** of what is read back are read back. -/
theorem Faithful.table (h : Faithful decode encode) :
    Faithful (Decoder.table decode) fun t => .record (t.map fun entry => (entry.1, encode entry.2)) := by
  intro t ht
  obtain ⟨hnodup, hvalues⟩ := gives_table ht
  refine ⟨.record fun member hmember => ?_, fun r hr => ?_⟩
  · obtain ⟨entry, hentry, rfl⟩ := List.mem_map.mp hmember
    exact (h entry.2 (hvalues entry hentry)).1
  · obtain ⟨inner, henter, hread⟩ := Reading.enter_record hr
    have hentries : ∀ entry ∈ t, decode inner (encode entry.2) = .ok entry.2 := fun entry hentry =>
      (h entry.2 (hvalues entry hentry)).2 inner (hread _ (List.mem_map_of_mem hentry))
    have hkeys : (Table.keys ([] : Table String α) ++ t.keys).Nodup := hnodup
    have hfold := foldlM_insert hentries hkeys
    show (r.enter >>= fun r => _ >>= fun entries => ensure true >>= fun _ => .ok entries) = _
    rw [henter, bind_ok, hfold]
    rfl

/-! ### Values that may be missing -/

/-- **A value or `null`**, where no value is written as `null`. -/
theorem Faithful.optional (h : Faithful decode encode) (hnull : ∀ x, encode x ≠ .null) :
    Faithful (Decoder.optional decode) fun x => (x.map encode).getD .null := by
  rintro (_ | x) hx
  · exact ⟨.null, fun _ _ => rfl⟩
  · have hgives : Gives decode x := by
      obtain ⟨r, document, hx⟩ := hx
      cases document with
      | null => cases hx
      | _ =>
          rw [Decoder.optional, map_eq_ok_iff] at hx
          · obtain ⟨found, hfound, heq⟩ := hx
            cases heq
            exact ⟨r, _, hfound⟩
          · exact nofun
    obtain ⟨hplain, hrestores⟩ := h x hgives
    refine ⟨hplain, fun r hr => ?_⟩
    show Decoder.optional decode r (encode x) = .ok (some x)
    rw [Decoder.optional, hrestores r hr]
    · rfl
    · exact hnull x

end Shapes

/-! ## Tagged objects -/

section Tagged

variable {α : Type} {kinds : List (String × Decoder α)} {r : Reading}

theorem mem_of_lookup {α : Type} {names : List (String × α)} {name : String} {x : α}
    (h : Decoder.lookup names name = .ok x) : (name, x) ∈ names := by
  unfold Decoder.lookup at h
  split at h
  · next found meaning hfind =>
      obtain rfl := Except.ok.inj h
      have hname : found = name := by simpa using List.find?_some hfind
      exact hname ▸ List.mem_of_find?_eq_some hfind
  · cases h

/-- A name that stands once is looked up. -/
theorem lookup_of_mem {α : Type} {names : List (String × α)} (hnodup : (names.map (·.1)).Nodup)
    {name : String} {x : α} (h : (name, x) ∈ names) : Decoder.lookup names name = .ok x := by
  have hfind : names.find? (·.1 = name) = some (name, x) := by
    induction names with
    | nil => exact absurd h List.not_mem_nil
    | cons entry names ih =>
        obtain ⟨hentry, hnames⟩ := List.nodup_cons.mp hnodup
        rcases List.mem_cons.mp h with rfl | h
        · exact List.find?_cons_of_pos (decide_eq_true rfl)
        · have hne : entry.1 ≠ name := fun heq => hentry (List.mem_map.mpr ⟨_, h, heq.symm⟩)
          rw [List.find?_cons_of_neg (by simpa using hne)]
          exact ih hnames h
  rw [Decoder.lookup, hfind]

theorem mem_of_tag {names : List (String × α)} {document : Json} {x : α}
    (h : Decoder.tag names r document = .ok x) : ∃ name, (name, x) ∈ names := by
  unfold Decoder.tag at h
  split at h
  · exact ⟨_, mem_of_lookup h⟩
  · split at h
    · next name meaning hget =>
        obtain rfl := Except.ok.inj h
        exact ⟨name, List.mem_of_getElem? hget⟩
    · cases h
  · exact absurd h (unexpected_ne_ok _ _ _)

/-- A tagged value is given by the decoder of its kind. -/
theorem gives_tagged {name : String} {x : α} (h : Gives (Decoder.tagged name kinds) x) :
    ∃ kind ∈ kinds, Gives kind.2 x := by
  obtain ⟨r, document, h⟩ := h
  unfold Decoder.tagged at h
  split at h
  · next r members extent =>
      simp only [bind_eq_ok_iff] at h
      obtain ⟨inner, -, ⟨found, others⟩, hsplit, -, -, h⟩ := h
      cases found with
      | none => cases h
      | some decode =>
          -- whatever members were read, a decoder that was found is one of the kinds
          have hfound : ∀ decode' ∈ (some decode, others).1, ∃ name, (name, decode') ∈ kinds := by
            refine foldlM_invariant (P := fun read : Option (Decoder α) × List (String × Json) =>
              ∀ decode' ∈ read.1, ∃ name, (name, decode') ∈ kinds) ?_ hsplit nofun
            rintro ⟨found, others⟩ ⟨key, document⟩ next hnext hread
            unfold Decoder.splitTag at hnext
            dsimp only at hnext
            split at hnext
            · split at hnext
              · cases hnext
              · simp only [bind_eq_ok_iff] at hnext
                obtain ⟨meaning, htag, hnext⟩ := hnext
                obtain rfl := Except.ok.inj hnext
                rintro decode' hdecode'
                obtain rfl := Option.some.inj hdecode'
                exact mem_of_tag htag
            · simp only [bind_eq_ok_iff] at hnext
              obtain ⟨-, -, hnext⟩ := hnext
              obtain rfl := Except.ok.inj hnext
              exact hread
          obtain ⟨name, hkind⟩ := hfound decode rfl
          exact ⟨(name, decode), hkind, .whole, _, h⟩
  · next r items closed =>
      simp only [bind_eq_ok_iff] at h
      obtain ⟨inner, -, h⟩ := h
      cases items with
      | nil =>
          obtain ⟨-, -, h⟩ := bind_eq_ok_iff.mp h
          cases h
      | cons first others =>
          simp only [bind_eq_ok_iff] at h
          obtain ⟨decode, htag, -, -, h⟩ := h
          obtain ⟨name, hkind⟩ := mem_of_tag htag
          exact ⟨(name, decode), hkind, .whole, _, h⟩
  · exact absurd h (unexpected_ne_ok _ _ _)

/-- Members that are no tags are kept for later, last one first. -/
theorem foldlM_splitTag {found : Option (Decoder α)} {members others : List (String × Json)}
    (htag : Decoder.tagKey ∉ members.map (·.1))
    (hread : ∀ member ∈ members, r.canRead member.2 = true) :
    members.foldlM (Decoder.splitTag kinds r) (found, others) =
      .ok (found, members.reverse ++ others) := by
  induction members generalizing others with
  | nil => rfl
  | cons member members ih =>
      obtain ⟨key, document⟩ := member
      obtain ⟨hkey, hmembers⟩ := not_or.mp (mt List.mem_cons.mpr htag)
      obtain ⟨hdocument, hrest⟩ := List.forall_mem_cons.mp hread
      have hstep : Decoder.splitTag kinds r (found, others) (key, document) =
          .ok (found, (key, document) :: others) := by
        unfold Decoder.splitTag
        dsimp only
        rw [if_neg (Ne.symm hkey), hdocument]
        rfl
      rw [List.foldlM_cons, hstep, bind_ok, ih hmembers hrest, List.reverse_cons, List.append_assoc]
      rfl

/-- **Tagged objects** are read back when each kind is, written under its own name and without another
    tag. -/
theorem Faithful.tagged {name : String} {kindName : α → String}
    {members : α → List (String × Json)} (hnodup : (kinds.map (·.1)).Nodup)
    (hkinds : ∀ kind ∈ kinds, Faithful kind.2 (fun x => .record (members x)) ∧
      ∀ x, Gives kind.2 x → kindName x = kind.1 ∧ Decoder.tagKey ∉ (members x).map (·.1)) :
    Faithful (Decoder.tagged name kinds) fun x =>
      .record ((Decoder.tagKey, .string (kindName x)) :: members x) := by
  intro x hx
  obtain ⟨⟨kind, decode⟩, hkind, hgives⟩ := gives_tagged hx
  obtain ⟨hfaithful, hmembers⟩ := hkinds _ hkind
  obtain ⟨hname, htag⟩ := hmembers x hgives
  obtain ⟨hplain, hrestores⟩ := hfaithful x hgives
  refine ⟨.record ?_, fun r hr => ?_⟩
  · cases hplain with
    | record h => exact List.forall_mem_cons.mpr ⟨.string _, h⟩
  · obtain ⟨inner, henter, hread⟩ := Reading.enter_record hr
    have hfirst : Decoder.splitTag kinds inner (none, []) (Decoder.tagKey, .string (kindName x)) =
        .ok (some decode, []) := by
      have hlookup : Decoder.tag kinds inner (.string (kindName x)) = .ok decode := by
        rw [hname]
        exact lookup_of_mem hnodup hkind
      unfold Decoder.splitTag
      dsimp only
      rw [if_pos rfl, hlookup]
      rfl
    -- the tag is read first, and the members behind it are put back in order
    have hsplit : ((Decoder.tagKey, .string (kindName x)) :: members x).foldlM
        (Decoder.splitTag kinds inner) (none, []) = .ok (some decode, (members x).reverse ++ []) := by
      rw [List.foldlM_cons, hfirst, bind_ok]
      exact foldlM_splitTag htag (List.forall_mem_cons.mp hread).2
    show (r.enter >>= fun r => List.foldlM (Decoder.splitTag kinds r) (none, []) _ >>= _) = _
    rw [henter, bind_ok, hsplit, bind_ok]
    show decode .whole (.record ((members x).reverse ++ []).reverse) = _
    rw [List.append_nil, List.reverse_reverse]
    exact hrestores .whole rfl

end Tagged

/-! ## Objects with known members -/

/-- One encoding for every type. -/
def Encoders : List Type → Type
  | [] => Unit
  | α :: types => (α → Json) × Encoders types

namespace Fields

variable {types : List Type} {r : Reading}

/-- The members of an object that has all fields in order. -/
def members : {types : List Type} → Fields types → Encoders types → Values types →
    List (String × Json)
  | _, done, _, _ => []
  | _, required name _ rest, (encode, encoders), (value, values)
  | _, withDefault name _ _ rest, (encode, encoders), (value, values) =>
      (name, encode value) :: rest.members encoders values

/-- **Values that fields can have**: those that their decoders give, and the defaults. -/
def Possible : {types : List Type} → Fields types → Values types → Prop
  | _, done, _ => True
  | _, required _ decode rest, (value, values) => Gives decode value ∧ rest.Possible values
  | _, withDefault _ decode default rest, (value, values) =>
      (value = default ∨ Gives decode value) ∧ rest.Possible values

/-- Slots of which each holds nothing or what the decoder of its field gives. -/
def Filled : {types : List Type} → Fields types → Slots types → Prop
  | _, done, _ => True
  | _, required _ decode rest, (slot, slots) | _, withDefault _ decode _ rest, (slot, slots) =>
      (∀ value ∈ slot, Gives decode value) ∧ rest.Filled slots

/-- **Fields are faithful to encodings** when every decoder is, and gives its default. -/
def Faithful : {types : List Type} → Fields types → Encoders types → Prop
  | _, done, _ => True
  | _, required _ decode rest, (encode, encoders) =>
      Json.Faithful decode encode ∧ rest.Faithful encoders
  | _, withDefault _ decode default rest, (encode, encoders) =>
      (Json.Faithful decode encode ∧ Gives decode default) ∧ rest.Faithful encoders

/-! ### What is given -/

theorem filled_blank (fields : Fields types) : fields.Filled fields.blank := by
  induction fields with
  | done => exact trivial
  | required name decode rest ih => exact ⟨nofun, ih⟩
  | withDefault name decode default rest ih => exact ⟨nofun, ih⟩

theorem gives_of_fill {α : Type} {name : String} {decode : Decoder α} {document : Json}
    {slot : Option α} {value : α} (h : fill name decode r document slot = .ok value) :
    Gives decode value := by
  unfold fill at h
  split at h
  · cases h
  · exact ⟨r, document, h⟩

/-- A member goes into the first slot or into one of the others. -/
theorem filled_of_put {α : Type} {name key : String} {decode : Decoder α} {document : Json}
    {rest : Fields types} {slot : Option α} {slots : Slots types} {next : Slots (α :: types)}
    (hput : (if name = key then some (do return (some (← fill name decode r document slot), slots))
      else (rest.put? r key document slots).map fun read => do return (slot, ← read)) =
        some (Except.ok next))
    (hrest : ∀ others, rest.put? r key document slots = some (.ok others) → rest.Filled others)
    (hslot : ∀ value ∈ slot, Gives decode value) (hslots : rest.Filled slots) :
    (∀ value ∈ next.1, Gives decode value) ∧ rest.Filled next.2 := by
  split at hput
  · obtain ⟨value, hvalue, heq⟩ := bind_eq_ok_iff.mp (Option.some.inj hput)
    cases heq
    refine ⟨fun found hfound => ?_, hslots⟩
    obtain rfl := Option.some.inj hfound
    exact gives_of_fill hvalue
  · obtain ⟨read, hread, heq⟩ := Option.map_eq_some_iff.mp hput
    obtain ⟨others, rfl, heq⟩ := bind_eq_ok_iff.mp heq
    cases heq
    exact ⟨hslot, hrest others hread⟩

/-- **A member** leaves the slots filled with what their decoders give. -/
theorem Filled.put {fields : Fields types} {slots next : Slots types} {key : String} {document : Json}
    (hput : fields.put? r key document slots = some (.ok next)) (h : fields.Filled slots) :
    fields.Filled next := by
  induction fields with
  | done => cases hput
  | required name decode rest ih =>
      obtain ⟨slot, slots⟩ := slots
      rw [put?] at hput
      exact filled_of_put hput (fun others hothers => ih hothers h.2) h.1 h.2
  | withDefault name decode default rest ih =>
      obtain ⟨slot, slots⟩ := slots
      rw [put?] at hput
      exact filled_of_put hput (fun others hothers => ih hothers h.2) h.1 h.2

/-- Filled slots are complete with possible values. -/
theorem Filled.possible {fields : Fields types} {slots : Slots types} {values : Values types}
    (hcomplete : fields.complete slots = .ok values) (h : fields.Filled slots) :
    fields.Possible values := by
  induction fields with
  | done => exact trivial
  | required name decode rest ih =>
      obtain ⟨slot, slots⟩ := slots
      obtain ⟨hslot, hslots⟩ := h
      cases slot with
      | none => cases hcomplete
      | some value =>
          obtain ⟨others, hothers, heq⟩ := bind_eq_ok_iff.mp hcomplete
          cases heq
          exact ⟨hslot value rfl, ih hothers hslots⟩
  | withDefault name decode default rest ih =>
      obtain ⟨slot, slots⟩ := slots
      obtain ⟨hslot, hslots⟩ := h
      obtain ⟨others, hothers, heq⟩ := bind_eq_ok_iff.mp hcomplete
      cases heq
      refine ⟨?_, ih hothers hslots⟩
      cases slot with
      | none => exact .inl rfl
      | some value => exact .inr (hslot value rfl)

/-- **Items** in the order of the fields are possible values. -/
theorem possible_of_ofItems {fields : Fields types} {closed : Bool} {short : Nat → Issue}
    {count : Nat} {items left : List Json} {values : Values types}
    (h : fields.ofItems r closed short count items = .ok (values, left)) : fields.Possible values := by
  induction fields generalizing count items with
  | done => exact trivial
  | required name decode rest ih =>
      cases items with
      | nil =>
          unfold ofItems at h
          cases h
      | cons item items =>
          simp only [ofItems, bind_eq_ok_iff, Prod.exists] at h
          obtain ⟨value, hvalue, others, behind, hothers, heq⟩ := h
          cases heq
          exact ⟨⟨r, item, hvalue⟩, ih hothers⟩
  | withDefault name decode default rest ih =>
      cases items with
      | nil =>
          simp only [ofItems, bind_eq_ok_iff, Prod.exists] at h
          obtain ⟨-, -, others, behind, hothers, heq⟩ := h
          cases heq
          exact ⟨.inl rfl, ih hothers⟩
      | cons item items =>
          simp only [ofItems, bind_eq_ok_iff, Prod.exists] at h
          obtain ⟨value, hvalue, others, behind, hothers, heq⟩ := h
          cases heq
          exact ⟨.inr ⟨r, item, hvalue⟩, ih hothers⟩

/-! ### What is written -/

/-- A default that is given makes all values of its field given. -/
theorem gives_of_default {α : Type} {decode : Decoder α} {value default : α}
    (h : value = default ∨ Gives decode value) (hdefault : Gives decode default) :
    Gives decode value := by
  rcases h with rfl | h
  · exact hdefault
  · exact h

/-- Possible values of faithful fields are written as plain documents that restore them. -/
theorem Faithful.written {fields : Fields types} {encoders : Encoders types} {values : Values types}
    (h : fields.Faithful encoders) (hvalues : fields.Possible values)
    (hread : ∀ member ∈ fields.members encoders values, r.canRead member.2 = true) :
    fields.Written r values (fields.members encoders values) := by
  induction fields with
  | done => rfl
  | required name decode rest ih =>
      obtain ⟨encode, encoders⟩ := encoders
      obtain ⟨value, values⟩ := values
      obtain ⟨hvalue, hothers⟩ := hvalues
      obtain ⟨hmember, hmembers⟩ := List.forall_mem_cons.mp hread
      exact ⟨_, _, rfl, (h.1 value hvalue).2 r hmember, ih h.2 hothers hmembers⟩
  | withDefault name decode default rest ih =>
      obtain ⟨encode, encoders⟩ := encoders
      obtain ⟨value, values⟩ := values
      obtain ⟨hvalue, hothers⟩ := hvalues
      obtain ⟨hmember, hmembers⟩ := List.forall_mem_cons.mp hread
      have hgives := gives_of_default hvalue h.1.2
      exact ⟨_, _, rfl, (h.1.1 value hgives).2 r hmember, ih h.2 hothers hmembers⟩

theorem Faithful.plain {fields : Fields types} {encoders : Encoders types} {values : Values types}
    (h : fields.Faithful encoders) (hvalues : fields.Possible values) :
    ∀ member ∈ fields.members encoders values, Plain member.2 := by
  induction fields with
  | done => exact nofun
  | required name decode rest ih =>
      obtain ⟨encode, encoders⟩ := encoders
      obtain ⟨value, values⟩ := values
      obtain ⟨hvalue, hothers⟩ := hvalues
      exact List.forall_mem_cons.mpr ⟨(h.1 value hvalue).1, ih h.2 hothers⟩
  | withDefault name decode default rest ih =>
      obtain ⟨encode, encoders⟩ := encoders
      obtain ⟨value, values⟩ := values
      obtain ⟨hvalue, hothers⟩ := hvalues
      have hgives := gives_of_default hvalue h.1.2
      exact List.forall_mem_cons.mpr ⟨(h.1.1 value hgives).1, ih h.2 hothers⟩

end Fields

namespace Record

variable {types : List Type} {α : Type} {record : Record types α}

/-- **A structure is given** with possible values in its fields. -/
theorem exists_possible {x : α} (h : Gives record.decode x) :
    ∃ values, record.fields.Possible values ∧ x = record.build values := by
  obtain ⟨r, document, h⟩ := h
  unfold decode at h
  split at h
  · next r members extent =>
      simp only [bind_eq_ok_iff, pure_eq_ok_iff] at h
      obtain ⟨inner, -, slots, hslots, -, -, values, hvalues, rfl⟩ := h
      -- a member is put into its slot, or is skipped, or nothing is given
      have hfilled : record.fields.Filled slots := by
        refine foldlM_invariant (P := record.fields.Filled) ?_ hslots record.fields.filled_blank
        rintro slots ⟨key, document⟩ next hnext hslots
        unfold member at hnext
        dsimp only at hnext
        split at hnext
        · next read hput =>
            rw [hnext] at hput
            exact hslots.put hput
        · split at hnext
          · obtain ⟨-, -, hnext⟩ := bind_eq_ok_iff.mp hnext
            cases hnext
            exact hslots
          · cases hnext
      exact ⟨values, hfilled.possible hvalues, rfl⟩
  · next r items closed =>
      simp only [bind_eq_ok_iff, Prod.exists] at h
      obtain ⟨inner, -, values, left, hvalues, h⟩ := h
      refine ⟨values, Fields.possible_of_ofItems hvalues, ?_⟩
      split at h
      · cases h
      · obtain ⟨-, -, h⟩ := bind_eq_ok_iff.mp h
        exact (Except.ok.inj h).symm
  · exact absurd h (unexpected_ne_ok _ _ _)

/-- **Structures** are read back when their fields are. -/
theorem faithful {encoders : Encoders types} {encode : α → Json}
    (hnames : record.fields.names.Nodup)
    (hencode : ∀ values, encode (record.build values) =
      .record (record.fields.members encoders values))
    (h : record.fields.Faithful encoders) : Faithful record.decode encode := by
  intro x hx
  obtain ⟨values, hvalues, rfl⟩ := exists_possible hx
  rw [hencode]
  refine ⟨.record (h.plain hvalues), fun r hr => ?_⟩
  obtain ⟨inner, henter, hread⟩ := Reading.enter_record hr
  exact decode_record (h.written hvalues hread) hnames henter

end Record

end MakeGraph.Json
