import MakeGraph.Proofs.Json.Tokens

/-!
# `Proofs.Json.RoundTrip` — a printed document reads as itself

The reader, where a value may come, takes the tokens of a document and gives the document to the
bracket around it (`Plain.takes`). With what the scanner finds in a printed text this is the round
trip: `parse_pretty`. A document may come back even where it nests too deep to be decoded; that is
the decoder's matter.
-/

namespace MakeGraph.Json

/-! ## Between brackets -/

/-- **Parts** with commas between them, up to the bracket that closes them. What is read so far
    stands in the frame `inside`, and behind a comma the reader is at the stage `again`. -/
theorem take_parts {α : Type} (inside : List α → Reader.Frame) (whole : List α → Json)
    {part : α → List Token} {again first : Reader.Stage} {last : Token}
    {frames : List Reader.Frame}
    (hcomma : ∀ read, Reader.take ⟨inside read :: frames, .next⟩ .comma =
      ⟨inside read :: frames, again⟩)
    (hlast : ∀ read, Reader.take ⟨inside read :: frames, .next⟩ last =
      Reader.give frames (whole read.reverse))
    {item : α} {items : List α}
    (hparts : ∀ item' ∈ item :: items, ∀ read stage, stage = again ∨ stage = first →
      List.foldl Reader.take ⟨inside read :: frames, stage⟩ (part item') =
        ⟨inside (item' :: read) :: frames, .next⟩)
    (read : List α) {stage : Reader.Stage} (hstage : stage = again ∨ stage = first) :
    List.foldl Reader.take ⟨inside read :: frames, stage⟩
        (List.intercalate [.comma] ((item :: items).map part) ++ [last]) =
      Reader.give frames (whole (read.reverse ++ item :: items)) := by
  induction items generalizing item read stage with
  | nil =>
      have hitem := hparts item List.mem_cons_self read stage hstage
      rw [List.map_singleton, List.intercalate_singleton, List.foldl_append, hitem,
        List.foldl_cons, List.foldl_nil, hlast, List.reverse_cons]
  | cons next items ih =>
      obtain ⟨hitem, hitems⟩ := List.forall_mem_cons.mp hparts
      rw [List.map_cons, List.map_cons, List.intercalate_cons_cons, ← List.map_cons,
        List.append_assoc, List.append_assoc, List.foldl_append, hitem read stage hstage,
        List.foldl_append, List.foldl_cons, List.foldl_nil, hcomma,
        ih hitems (item :: read) (Or.inl rfl), List.reverse_cons, List.append_assoc,
        List.singleton_append]

/-! ## Documents -/

/-- Where a value may come, the reader takes the tokens of a document and gives it away. -/
def Takes (document : Json) : Prop :=
  ∀ frames stage, stage = .value ∨ stage = .firstItem →
    List.foldl Reader.take ⟨frames, stage⟩ (tokens document) = Reader.give frames document

/-- An array of documents that are taken. -/
theorem takes_list {items : List Json} (h : ∀ item ∈ items, Takes item) : Takes (list items) := by
  intro frames stage hstage
  have hopen : Reader.take ⟨frames, stage⟩ .openArray = ⟨.array [] :: frames, .firstItem⟩ := by
    rcases hstage with rfl | rfl <;> rfl
  rw [list, tokens, itemTokens_eq_map, List.foldl_cons, hopen]
  cases items with
  | nil => rfl
  | cons item items =>
      exact take_parts .array list (fun _ => rfl) (fun _ => rfl)
        (fun item hitem read stage hstage => h item hitem _ stage hstage) [] (Or.inr rfl)

/-- An object of members whose values are taken. -/
theorem takes_record {members : List (String × Json)} (h : ∀ member ∈ members, Takes member.2) :
    Takes (record members) := by
  intro frames stage hstage
  have hopen : Reader.take ⟨frames, stage⟩ .openObject = ⟨.object [] false :: frames, .firstKey⟩ := by
    rcases hstage with rfl | rfl <;> rfl
  have hmember : ∀ member ∈ members, ∀ read stage, stage = .key ∨ stage = .firstKey →
      List.foldl Reader.take ⟨.object read false :: frames, stage⟩ (tokensOfMember member) =
        ⟨.object (member :: read) false :: frames, .next⟩ := by
    intro member hmem read stage hstage
    have hcolon : List.foldl Reader.take ⟨.object read false :: frames, stage⟩
        [.string member.1, .colon] = ⟨.member read (some member.1) :: frames, .value⟩ := by
      rcases hstage with rfl | rfl <;> rfl
    show List.foldl _ _ ([Token.string member.1, Token.colon] ++ tokens member.2) = _
    rw [List.foldl_append, hcolon, h member hmem _ _ (Or.inl rfl)]
    rfl
  rw [record, tokens, memberTokens_eq_map, List.foldl_cons, hopen]
  cases members with
  | nil => rfl
  | cons member members =>
      exact take_parts (.object · false) record (fun _ => rfl) (fun _ => rfl) hmember [] (Or.inr rfl)

/-- **A document** is taken by its tokens. -/
theorem Plain.takes {document : Json} (h : Plain document) : Takes document := by
  induction h with
  | null =>
      rintro frames stage (rfl | rfl) <;> rfl
  | bool value =>
      rintro frames stage (rfl | rfl) <;> rfl
  | string text =>
      rintro frames stage (rfl | rfl) <;> rfl
  | list hitems ih => exact takes_list ih
  | record hmembers ih => exact takes_record ih

/-- **The round trip of documents.** A printed document reads as itself, with nothing behind it. -/
theorem parse_pretty {document : Json} (h : Plain document) :
    parse document.pretty = ⟨document, false⟩ := by
  have htakes : (tokens document).foldl Reader.take {} = ⟨[], .done document⟩ :=
    h.takes [] .value (Or.inl rfl)
  rw [parse, h.scan_pretty, htakes]

end MakeGraph.Json
