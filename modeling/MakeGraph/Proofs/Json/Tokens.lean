import MakeGraph.Json.Document
import MakeGraph.Json.Printer

/-!
# `Proofs.Json.Tokens` — what a printed document scans to

`Json.tokens` are the tokens of a document. The scanner finds them in its printed text, with any
indentation (`scans_prettyAt`), as long as the document is `Plain`: whole, and without numbers,
whose texts end only where the next token begins.

`Scans text tokens` says that the scanner, between two tokens, finds `tokens` in `text` and is
between two tokens again. So texts that scan can be put together (`Scans.append`), and a document is
taken apart the way the printer puts it together.
-/

namespace MakeGraph.Json

/-! ## Plain documents -/

/-- A whole document without numbers. -/
inductive Plain : Json → Prop where
  | null : Plain null
  | bool (value : Bool) : Plain (bool value)
  | string (text : String) : Plain (string text)
  | list {items : List Json} (h : ∀ item ∈ items, Plain item) : Plain (list items)
  | record {members : List (String × Json)} (h : ∀ member ∈ members, Plain member.2) :
      Plain (record members)

/-! ## Tokens -/

mutual

/-- The tokens of a document. -/
def tokens : Json → List Token
  | string text => [.string text]
  | array items _ => .openArray :: (List.intercalate [.comma] (itemTokens items) ++ [.closeArray])
  | object members _ =>
      .openObject :: (List.intercalate [.comma] (memberTokens members) ++ [.closeObject])
  | scalar => [.scalar scalar]

/-- The tokens of each item. -/
def itemTokens : List Json → List (List Token)
  | [] => []
  | item :: items => tokens item :: itemTokens items

/-- The tokens of each member. -/
def memberTokens : List (String × Json) → List (List Token)
  | [] => []
  | (key, value) :: members => (.string key :: .colon :: tokens value) :: memberTokens members

end

/-- The tokens of a member. -/
def tokensOfMember (member : String × Json) : List Token :=
  .string member.1 :: .colon :: tokens member.2

theorem itemTokens_eq_map (items : List Json) : itemTokens items = items.map tokens := by
  induction items with
  | nil => rfl
  | cons item items ih => rw [itemTokens, ih, List.map_cons]

theorem memberTokens_eq_map (members : List (String × Json)) :
    memberTokens members = members.map tokensOfMember := by
  induction members with
  | nil => rfl
  | cons member members ih => rw [memberTokens, ih, List.map_cons, tokensOfMember]

theorem prettyItems_eq_map (depth : Nat) (items : List Json) :
    prettyItems depth items = items.map (prettyAt depth) := by
  induction items with
  | nil => rfl
  | cons item items ih => rw [prettyItems, ih, List.map_cons]

theorem prettyMembers_eq_map (depth : Nat) (members : List (String × Json)) :
    prettyMembers depth members =
      members.map fun member => quoted member.1 ++ ": " ++ prettyAt depth member.2 := by
  induction members with
  | nil => rfl
  | cons member members ih => rw [prettyMembers, ih, List.map_cons]

/-! ## Scanning -/

/-- The scanner finds `tokens` in `text`, from between two tokens to between two tokens. -/
def Scans (text : String) (tokens : List Token) : Prop :=
  ∀ found, text.toList.foldl Scanner.eat ⟨found, .between⟩ = ⟨tokens.reverse ++ found, .between⟩

theorem Scans.empty : Scans "" [] :=
  fun _ => rfl

theorem Scans.append {front back : String} {ts us : List Token} (hfront : Scans front ts)
    (hback : Scans back us) : Scans (front ++ back) (ts ++ us) := by
  intro found
  rw [String.toList_append, List.foldl_append, hfront, hback, List.reverse_append,
    List.append_assoc]

/-- Blanks hold no token. -/
theorem scans_indent (depth : Nat) : Scans (indent depth) [] := by
  intro found
  rw [indent, String.toList_ofList]
  induction 2 * depth with
  | zero => rfl
  | succ n ih =>
      rw [List.replicate_succ, List.foldl_cons]
      exact ih

/-- Texts with a separator between each two scan to their tokens with its tokens between each two.
    -/
theorem Scans.intercalate {α : Type} {delim : String} {sep : List Token} (hdelim : Scans delim sep)
    {text : α → String} {part : α → List Token} {items : List α}
    (h : ∀ item ∈ items, Scans (text item) (part item)) :
    Scans (delim.intercalate (items.map text)) (sep.intercalate (items.map part)) := by
  induction items with
  | nil => exact .empty
  | cons item items ih =>
      obtain ⟨hitem, hitems⟩ := List.forall_mem_cons.mp h
      cases items with
      | nil =>
          rw [List.map_singleton, List.map_singleton, String.intercalate_singleton,
            List.intercalate_singleton]
          exact hitem
      | cons next items =>
          rw [List.map_cons, List.map_cons, List.map_cons, List.map_cons,
            String.intercalate_cons_cons, List.intercalate_cons_cons]
          exact (hitem.append hdelim).append (ih hitems)

/-! ## Strings -/

theorem hexDigit?_hexDigit : ∀ n < 16, Scanner.hexDigit? (hexDigit n) = some n := by
  decide

/-- A character below U+0020 as an escape by code. -/
theorem eat_code {c : Char} (hc : c.toNat < 0x20) (found : List Token) (read : List Char) :
    ['\\', 'u', '0', '0', hexDigit (c.toNat / 16), hexDigit (c.toNat % 16)].foldl Scanner.eat
        ⟨found, .string ⟨read, none, true⟩⟩ = ⟨found, .string ⟨c :: read, none, true⟩⟩ := by
  have hhigh := hexDigit?_hexDigit (c.toNat / 16) (by omega)
  have hlow := hexDigit?_hexDigit (c.toNat % 16) (by omega)
  have hzero : Scanner.hexDigit? '0' = some 0 := by decide
  have hvalue : c.toNat / 16 * 16 + c.toNat % 16 = c.toNat := by omega
  have hfirst : ¬ 0xD800 ≤ c.toNat := by omega
  have hsecond : ¬ 0xDC00 ≤ c.toNat := by omega
  simp [Scanner.eat, hzero, hhigh, hlow, hvalue, StringText.pushUnit, StringText.push, hfirst,
    hsecond]

/-- The scanner reads a character of a string from its escaped form. -/
theorem eat_escapeChar (c : Char) (found : List Token) (read : List Char) :
    (escapeChar c).foldl Scanner.eat ⟨found, .string ⟨read, none, true⟩⟩ =
      ⟨found, .string ⟨c :: read, none, true⟩⟩ := by
  unfold escapeChar
  split
  · subst_vars; rfl
  split
  · subst_vars; rfl
  split
  · subst_vars; rfl
  split
  · subst_vars; rfl
  split
  · subst_vars; rfl
  split
  · subst_vars; rfl
  split
  · subst_vars; rfl
  split
  · rename_i hcontrol
    exact eat_code hcontrol found read
  · rename_i hquote hbackslash _ _ _ _ _ hcontrol
    have hprintable : ¬ c < ' ' := fun hlt => hcontrol hlt
    simp [Scanner.eat, hquote, hbackslash, hprintable, StringText.push]

theorem eat_escaped (text : List Char) (found : List Token) (read : List Char) :
    (text.flatMap escapeChar).foldl Scanner.eat ⟨found, .string ⟨read, none, true⟩⟩ =
      ⟨found, .string ⟨text.reverse ++ read, none, true⟩⟩ := by
  induction text generalizing read with
  | nil => rfl
  | cons c text ih =>
      rw [List.flatMap_cons, List.foldl_append, eat_escapeChar, ih, List.reverse_cons,
        List.append_assoc]
      rfl

/-- **A quoted string** is one token. -/
theorem scans_quoted (text : String) : Scans (quoted text) [.string text] := by
  intro found
  have hopen : ['"'].foldl Scanner.eat ⟨found, .between⟩ = ⟨found, .string ⟨[], none, true⟩⟩ := rfl
  have hclose : ['"'].foldl Scanner.eat ⟨found, .string ⟨text.toList.reverse ++ [], none, true⟩⟩ =
      ⟨.string text :: found, .between⟩ := by
    simp [Scanner.eat, StringText.token, Scanner.emit]
  have htext : (quoted text).toList = ['"'] ++ text.toList.flatMap escapeChar ++ ['"'] := by
    simp [quoted]
  rw [htext, List.foldl_append, List.foldl_append, hopen, eat_escaped, hclose]
  rfl

/-! ## Documents -/

/-- Lines in brackets scan to what they hold, between the tokens of the brackets. -/
theorem scans_block {α : Type} {opening closing : String} {first last : Token}
    (hopening : Scans opening [first]) (hclosing : Scans closing [last]) (depth : Nat)
    {line : α → String} {part : α → List Token} {items : List α}
    (h : ∀ item ∈ items, Scans (line item) (part item)) :
    Scans (block opening closing depth (items.map line))
      (first :: (List.intercalate [.comma] (items.map part) ++ [last])) := by
  have hcomma : Scans ",\n" [.comma] := fun _ => rfl
  have hbreak : Scans "\n" [] := fun _ => rfl
  have hlines : Scans (String.intercalate ",\n" ((items.map line).map (indent (depth + 1) ++ ·)))
      (List.intercalate [.comma] (items.map part)) := by
    rw [List.map_map]
    exact hcomma.intercalate fun item hitem => (scans_indent (depth + 1)).append (h item hitem)
  unfold block
  split
  · rename_i hnil
    rw [List.map_eq_nil_iff] at hnil
    subst hnil
    exact hopening.append hclosing
  · have hall := ((((hopening.append hbreak).append hlines).append hbreak).append
      (scans_indent depth)).append hclosing
    simpa only [List.append_nil, List.nil_append, List.cons_append] using hall

/-- **A printed document** scans to its tokens, at any depth. -/
theorem Plain.scans_prettyAt {document : Json} (h : Plain document) (depth : Nat) :
    Scans (prettyAt depth document) (tokens document) := by
  induction h generalizing depth with
  | null =>
      rw [prettyAt]
      exact fun _ => rfl
  | bool value =>
      cases value
      all_goals
        rw [prettyAt]
        exact fun _ => rfl
  | string text =>
      rw [prettyAt, tokens]
      exact scans_quoted text
  | @list items hitems ih =>
      rw [Json.list, prettyAt, tokens, prettyItems_eq_map, itemTokens_eq_map]
      exact scans_block (fun _ => rfl) (fun _ => rfl) depth fun item hitem => ih item hitem _
  | @record members hmembers ih =>
      rw [Json.record, prettyAt, tokens, prettyMembers_eq_map, memberTokens_eq_map]
      have hcolon : Scans ": " [.colon] := fun _ => rfl
      exact scans_block (fun _ => rfl) (fun _ => rfl) depth fun member hmember =>
        ((scans_quoted member.1).append hcolon).append (ih member hmember _)

/-- The tokens of a printed document. -/
theorem Plain.scan_pretty {document : Json} (h : Plain document) :
    Token.scan document.pretty = tokens document := by
  have hscans := h.scans_prettyAt 0 []
  rw [Token.scan, pretty, hscans, Scanner.finish, List.append_nil, List.reverse_reverse]

end MakeGraph.Json
