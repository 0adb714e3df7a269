import ResultCache.Proofs.Cache.Isolation
import ResultCache.Proofs.Json.Document
import ResultCache.Proofs.Value.Loops
import ResultCache.Value.JsonText

/-!
# Values read back from their JSON text

A value without floating point numbers is written as a document (`Frozen.document`) whose strings
and numbers read back, so the whole document does. It is read as the frozen copy of the value,
exactly if it nests less than data may nest (`ofJson?_document`).

The copy is made of new objects. It shows what the value shows, cut to an object without properties
exactly at the places where the way into the value comes to an object again (`json_reads_back`).
-/
namespace ResultCache

namespace Outline

mutual

/-- The text of an outline is that of the frozen value that it shows. -/
theorem json_cut (l : Outline) : l.cut.outline.json = l.json := by
  cases l with
  | list ls => rw [cut, Frozen.outline, json, json, jsonAll_cutAll ls]
  | object props => rw [cut, Frozen.outline, json, json, jsonProps_cutProps props]
  | ref o => rw [cut, Frozen.outline, Frozen.outlineProps, json, json, jsonProps]
  | _ => rfl

theorem jsonAll_cutAll (ls : List Outline) :
    jsonAll (Frozen.outlineAll (cutAll ls)) = jsonAll ls := by
  cases ls with
  | nil => rfl
  | cons l ls => rw [cutAll, Frozen.outlineAll, jsonAll, jsonAll, json_cut l, jsonAll_cutAll ls]

theorem jsonProps_cutProps (props : List (String × Outline)) :
    jsonProps (Frozen.outlineProps (cutProps props)) = jsonProps props := by
  match props with
  | [] => rfl
  | (name, l) :: props =>
    rw [cutProps, Frozen.outlineProps, jsonProps, jsonProps, json_cut l, jsonProps_cutProps props]

end

theorem jsonAll_eq_map (ls : List Outline) : jsonAll ls = ls.map json := by
  induction ls with
  | nil => rfl
  | cons l ls ih => rw [jsonAll, ih, List.map_cons]

theorem jsonProps_eq_map (props : List (String × Outline)) :
    jsonProps props = props.map fun p => Json.stringText p.1 ++ ":" ++ p.2.json := by
  induction props with
  | nil => rfl
  | cons p props ih => rw [jsonProps, ih, List.map_cons]

end Outline

/-- The text of a value is that of its frozen copy. -/
theorem Heap.json_eq (h : Heap) (v : Value) : h.json v = (h.freeze v).outline.json := by
  have hcut : (h.outline v).cut = h.freeze v := h.cut_outlineHolding [] v
  rw [json, ← Outline.json_cut, hcut]

theorem toList_compact (opening closing : String) (parts : List String) :
    (compact opening parts closing).toList =
      opening.toList ++ [','].intercalate (parts.map String.toList) ++ closing.toList := by
  simp [compact, String.toList_intercalate]

/-- The text of an array is that of its items. -/
theorem toList_array {parts : List String} {items : List Json}
    (hparts : parts.map String.toList = items.map Json.chars) :
    (compact "[" parts "]").toList = (Json.array items).chars := by
  rw [toList_compact, hparts, Json.chars, Json.charsAll_eq_map]
  rfl

/-- The text of an object is that of its members. -/
theorem toList_object {parts : List String} {members : List (Option String × Json)}
    (hparts : parts.map String.toList = members.map Json.memberChars) :
    (compact "\x7b" parts "\x7d").toList = (Json.object members).chars := by
  rw [toList_compact, hparts, Json.chars, Json.charsMembers_eq_map]
  rfl

namespace Frozen

open Json (Number)

/-- The document of one tagged value. -/
def tagged (tag : String) (content : Json) : Json := .object [(some tag, content)]

/-- The document of a floating point number: a number if it is written as one. -/
def floatDocument (bits : UInt64) : Json :=
  (Number.ofChars? (jsonFloatText bits).toList).elim .null .number

mutual

/-- The document that a frozen value is written as. -/
def document : Frozen → Json
  | .null => .string (some "Null")
  | .bool b => tagged "Boolean" (.bool b)
  | .int n => tagged "Int64" (.number (.ofInt n.toInt))
  | .float bits => tagged "Float64" (floatDocument bits)
  | .text s => tagged "Utf8" (.string (some s))
  | .bytes bs => tagged "Binary" (.array (bs.map fun b => .number (.ofInt b.toNat)))
  | .list fs => tagged "List" (.array (documentAll fs))
  | .object ps => tagged "Object" (.object (documentProps ps))

def documentAll : List Frozen → List Json
  | [] => []
  | f :: fs => document f :: documentAll fs

def documentProps : List (String × Frozen) → List (Option String × Json)
  | [] => []
  | (name, f) :: ps => (some name, document f) :: documentProps ps

end

theorem documentAll_eq_map (fs : List Frozen) : documentAll fs = fs.map document := by
  induction fs with
  | nil => rfl
  | cons f fs ih => rw [documentAll, ih, List.map_cons]

theorem documentProps_eq_map (ps : List (String × Frozen)) :
    documentProps ps = ps.map fun p => (some p.1, p.2.document) := by
  induction ps with
  | nil => rfl
  | cons p ps ih => rw [documentProps, ih, List.map_cons]

/-- There is no floating point number in a frozen value. -/
inductive Floatless : Frozen → Prop where
  | null : Floatless .null
  | bool (b : Bool) : Floatless (.bool b)
  | int (n : Int64) : Floatless (.int n)
  | text (s : String) : Floatless (.text s)
  | bytes (bs : List UInt8) : Floatless (.bytes bs)
  | list {fs : List Frozen} (hfs : ∀ f ∈ fs, Floatless f) : Floatless (.list fs)
  | object {ps : List (String × Frozen)} (hps : ∀ p ∈ ps, Floatless p.2) : Floatless (.object ps)

/-- It is enough that no floating point number shows at any place. -/
theorem Floatless.of_shape {f : Frozen}
    (hf : ∀ place bits, f.shape place ≠ some (.float bits)) : f.Floatless := by
  have hparts : ∀ {f g : Frozen}, (∀ place bits, f.shape place ≠ some (.float bits)) →
      g ∈ f.inside → ∀ place bits, g.shape place ≠ some (.float bits) := by
    intro f g hf hg place bits
    obtain ⟨i, hi⟩ := List.getElem?_of_mem hg
    have hplace := hf (i :: place) bits
    rw [shape_cons, hi] at hplace
    exact hplace
  induction f using Frozen.induct with
  | null => exact .null
  | bool b => exact .bool b
  | int n => exact .int n
  | float bits => exact (hf [] bits rfl).elim
  | text s => exact .text s
  | bytes bs => exact .bytes bs
  | list fs ih => exact .list fun f hm => ih f hm (hparts hf hm)
  | object ps ih => exact .object fun p hm => ih p hm (hparts hf (List.mem_map_of_mem hm))

theorem written_tagged (tag : String) {content : Json} (hcontent : content.Written) :
    (tagged tag content).Written := by
  refine .object ?_ ?_
  · simp
  · simpa using hcontent

theorem Floatless.written_document {f : Frozen} (hf : f.Floatless) : f.document.Written := by
  induction hf with
  | null => exact .string _
  | bool b => exact written_tagged _ (.bool b)
  | int n => exact written_tagged _ (.number (Number.written_ofInt _))
  | text s => exact written_tagged _ (.string s)
  | bytes bs =>
    refine written_tagged _ (.array (List.forall_mem_map.2 fun b _ => ?_))
    exact .number (Number.written_ofInt _)
  | list _ ih =>
    rw [document, documentAll_eq_map]
    exact written_tagged _ (.array (List.forall_mem_map.2 ih))
  | object _ ih =>
    rw [document, documentProps_eq_map]
    refine written_tagged _ (.object ?_ (List.forall_mem_map.2 ih))
    exact List.forall_mem_map.2 fun _ _ => rfl

/-- The text of a tagged value is that of its document if the text of its content is. -/
theorem toList_taggedJson {tag text : String} {content : Json}
    (hcontent : text.toList = content.chars) :
    (taggedJson tag text).toList = (tagged tag content).chars := by
  apply toList_object
  simp [Json.memberChars, hcontent]

theorem toList_intText (n : Int) : (Text.intText n).toList = (Json.number (.ofInt n)).chars := by
  rw [← Number.chars_ofInt, String.toList_ofList, Json.chars]

theorem Floatless.toList_json {f : Frozen} (hf : f.Floatless) :
    f.outline.json.toList = f.document.chars := by
  induction hf with
  | null => rfl
  | bool b =>
    apply toList_taggedJson
    cases b <;> rfl
  | int n =>
    apply toList_taggedJson
    exact toList_intText _
  | text s =>
    apply toList_taggedJson
    rfl
  | bytes bs =>
    apply toList_taggedJson
    apply toList_array
    rw [List.map_map, List.map_map]
    exact List.map_congr_left fun b _ => toList_intText _
  | @list fs _ ih =>
    rw [document, documentAll_eq_map, outline, outlineAll_eq_map, Outline.json,
      Outline.jsonAll_eq_map]
    apply toList_taggedJson
    apply toList_array
    rw [List.map_map, List.map_map, List.map_map]
    exact List.map_congr_left ih
  | @object ps _ ih =>
    rw [document, documentProps_eq_map, outline, outlineProps_eq_map, Outline.json,
      Outline.jsonProps_eq_map]
    apply toList_taggedJson
    apply toList_object
    rw [List.map_map, List.map_map, List.map_map]
    refine List.map_congr_left fun p hp => ?_
    simp [Json.memberChars, ih p hp]

/-- A value without floating point numbers is written as its document. -/
theorem Floatless.parse?_json {f : Frozen} (hf : f.Floatless) :
    Json.parse? f.outline.json = some f.document := by
  rw [← String.ofList_toList (s := f.outline.json), hf.toList_json]
  exact hf.written_document.parse?_chars

/-- What is left of the depth inside the members of a document. -/
theorem allOfJson?_documents {fs : List Frozen} {room : Nat} (hroom : 0 < room)
    (hfs : ∀ f ∈ fs, ofJson? room f.document =
      if f.document.depth < room then some f else none) :
    allOfJson? room (fs.map document) =
      if Json.depthAll (fs.map document) < room then some fs else none := by
  induction fs with
  | nil => exact (if_pos hroom).symm
  | cons f fs ih =>
    rw [List.map_cons, allOfJson?, Json.depthAll, hfs f List.mem_cons_self,
      ih fun g hg => hfs g (List.mem_cons_of_mem _ hg)]
    simp only [Nat.max_lt]
    by_cases hdeep : f.document.depth < room
    · by_cases hrest : Json.depthAll (fs.map document) < room
      · simp [hdeep, hrest]
      · simp [hdeep, hrest]
    · simp [hdeep]

theorem propsOfJson?_documents {ps : List (String × Frozen)} {room : Nat} (hroom : 0 < room)
    (hps : ∀ p ∈ ps, ofJson? room p.2.document =
      if p.2.document.depth < room then some p.2 else none) :
    propsOfJson? room (ps.map fun p => (some p.1, p.2.document)) =
      if Json.depthMembers (ps.map fun p => (some p.1, p.2.document)) < room then some ps
      else none := by
  induction ps with
  | nil => exact (if_pos hroom).symm
  | cons p ps ih =>
    rw [List.map_cons, propsOfJson?, Json.depthMembers, hps p List.mem_cons_self,
      ih fun q hq => hps q (List.mem_cons_of_mem _ hq)]
    simp only [Nat.max_lt]
    by_cases hdeep : p.2.document.depth < room
    · by_cases hrest : Json.depthMembers (ps.map fun p => (some p.1, p.2.document)) < room
      · simp [hdeep, hrest]
      · simp [hdeep, hrest]
    · simp [hdeep]

theorem depth_tagged (tag : String) (content : Json) :
    (tagged tag content).depth = content.depth + 1 := by
  simp [tagged, Json.depth, Json.depthMembers]

theorem mapM_byteOfJson? (bs : List UInt8) :
    (bs.map fun b => Json.number (.ofInt b.toNat)).mapM byteOfJson? = some bs := by
  induction bs with
  | nil => rfl
  | cons b bs ih =>
    have hb : byteOfJson? (.number (.ofInt b.toNat)) = some b := by
      rw [byteOfJson?, Number.unsigned?_ofInt b.toNat_lt (by decide), Option.map_some,
        UInt8.ofNat_toNat]
    rw [List.map_cons, List.mapM_cons, hb, ih]
    rfl

theorem depthAll_bytes (bs : List UInt8) :
    Json.depthAll (bs.map fun b => Json.number (.ofInt b.toNat)) = 0 := by
  induction bs with
  | nil => rfl
  | cons b bs ih =>
    rw [List.map_cons, Json.depthAll, ih]
    rfl

/-- A container takes up one level of the depth that is left. -/
theorem enter_bind {α : Type} {a : α} {room depth : Nat} {read : Nat → Option α}
    (hread : ∀ room, 0 < room → read room = if depth < room then some a else none) :
    (Json.enter room).bind read = if depth + 1 < room then some a else none := by
  rw [Json.enter_eq]
  by_cases hroom : 1 < room
  · have hdeep : depth < room - 1 ↔ depth + 1 < room := by omega
    rw [if_pos hroom, Option.bind_some, hread (room - 1) (by omega)]
    simp only [hdeep]
  · rw [if_neg hroom, if_neg (by omega)]
    rfl

/-- Content that is no container takes up no further level. -/
theorem enter_bind_plain {α : Type} {a : α} {room : Nat} {content : Option α}
    (hcontent : content = some a) :
    ((Json.enter room).bind fun _ => content) = if 0 + 1 < room then some a else none :=
  enter_bind fun _ hroom => hcontent.trans (if_pos hroom).symm

/-- A document is read as the value that it was written for, exactly if there is room for all
containers inside one another. -/
theorem Floatless.ofJson?_document {f : Frozen} (hf : f.Floatless) (hregular : f.Regular)
    {room : Nat} (hroom : 0 < room) :
    ofJson? room f.document = if f.document.depth < room then some f else none := by
  induction hf generalizing room with
  | null => exact (if_pos hroom).symm
  | bool b =>
    rw [document, depth_tagged]
    exact enter_bind_plain rfl
  | int n =>
    rw [document, depth_tagged]
    exact enter_bind_plain (by rw [Number.int64?_ofInt])
  | text s =>
    rw [document, depth_tagged]
    exact enter_bind_plain rfl
  | bytes bs =>
    rw [document, depth_tagged, Json.depth, depthAll_bytes]
    refine enter_bind fun room _ => enter_bind_plain ?_
    rw [mapM_byteOfJson?]
    rfl
  | @list fs _ ih =>
    cases hregular with | list _ hfs =>
    rw [document, depth_tagged, Json.depth, documentAll_eq_map]
    refine enter_bind fun room _ => enter_bind fun room hroom => ?_
    rw [allOfJson?_documents hroom fun f hf => ih f hf (hfs f hf) hroom]
    split <;> rfl
  | @object ps _ ih =>
    cases hregular with | object _ sorted _ hps =>
    rw [document, depth_tagged, Json.depth, documentProps_eq_map]
    refine enter_bind fun room _ => enter_bind fun room hroom => ?_
    rw [propsOfJson?_documents hroom fun p hp => ih p hp (hps p hp) hroom]
    split
    · rw [Option.map_some, NameMap.entries_ofList sorted]
    · rfl

theorem Floatless.nesting_json {f : Frozen} (hf : f.Floatless) :
    Json.nesting f.outline.json = f.document.depth := by
  rw [Json.nesting, hf.parse?_json]
  rfl

/-- The text of a value is read as the value, exactly if it nests less than data may nest. -/
theorem Floatless.parse?_eq {f : Frozen} (hf : f.Floatless) (hregular : f.Regular) :
    parse? f.outline.json =
      if Json.nesting f.outline.json < Json.depthLimit then some f else none := by
  rw [parse?, hf.parse?_json, Option.bind_some, hf.nesting_json]
  exact hf.ofJson?_document hregular (by decide)

end Frozen

namespace Heap

variable {h : Heap} {v : Value}

/-- A copy has no floating point number if none is in reach. -/
theorem floatless_freeze (hfloat : ∀ place bits, h.unfolding v place ≠ some (.float bits)) :
    (h.freeze v).Floatless := by
  refine .of_shape fun place bits => ?_
  rw [freeze, shape_freezeAlong, cutUnfolding]
  split
  · simp
  · split
    · simp
    · exact hfloat place bits

/-- A value is read back from its JSON text. If no floating point number shows anywhere in `v` and
its text nests less than data may nest, then the text is read as the copy of `v`, and a value `w` is
made of it. It shows what `v` shows, except that it has an object without properties exactly where
the way into `v` comes to an object again. All objects in reach of `w` are new, no other object was
changed, and no object leads back to itself. -/
theorem json_reads_back {K : ObjId → Prop} (hK : h.Region K) (hv : v.Within K)
    (hfloat : ∀ place bits, h.unfolding v place ≠ some (.float bits))
    (hnest : Json.nesting (h.json v) < Json.depthLimit) :
    Frozen.parse? (h.json v) = some (h.freeze v) ∧
      ∀ g : Heap, ∃ w g', (h.freeze v).thaw g = (w, g') ∧ g'.freeze w = h.freeze v ∧
        g'.unfolding w = h.cutUnfolding [] v ∧ g.Grows g' ∧
        ∀ o, g'.Reaches (named [w]) o → g.Fresh g' o ∧ ¬ Relation.TransGen g'.LeadsTo o o := by
  have hregular : (h.freeze v).Regular := h.freezeAlong_regular hK [] hv
  refine ⟨?_, fun g => ⟨((h.freeze v).thaw g).1, ((h.freeze v).thaw g).2, rfl, ?_⟩⟩
  · rw [h.json_eq] at hnest ⊢
    rw [(floatless_freeze hfloat).parse?_eq hregular, if_pos hnest]
  · have hmade := Frozen.made_thaw hregular g
    have hfreeze := List.singleton_inj.1 hmade.freeze
    refine ⟨hfreeze, ?_, hmade.grows, fun o ho => ⟨hmade.fresh ho, hmade.acyclic o ho⟩⟩
    have hshape := hmade.acyclic.shape_freeze fun o ho => .root ⟨_, List.mem_singleton_self _, ho⟩
    rw [← hshape, hfreeze, freeze, shape_freezeAlong]

/-- Whatever is found inside a value has a property that is handed on to what is inside. -/
theorem of_at? {P : Value → Prop} (hP : ∀ a, P a → ∀ b ∈ h.inside a, P b) (hv : P v)
    {place : Place} {a : Value} (ha : h.at? v place = some a) : P a := by
  induction place generalizing v with
  | nil => cases ha; exact hv
  | cons i place ih =>
    obtain ⟨b, hb, ha⟩ := Option.bind_eq_some_iff.1 ha
    exact ih (hP v hv b (List.mem_of_getElem? hb)) ha

/-- A list of an object that leads back to itself, a text with a quote, a control character and a
letter beyond ASCII, the least integer and two bytes is read back; the way back into the object is
cut. -/
theorem json_reads_back_loopHeap :
    let v := Value.list [.object ⟨0⟩, .text "\"\x07é", .int Int64.minValue, .bytes [0, 255]]
    let f := Frozen.list [.object [("me", .object [])], .text "\"\x07é", .int Int64.minValue,
      .bytes [0, 255]]
    Frozen.parse? (Copying.loopHeap.json v) = some f ∧
      ∀ g : Heap, ∃ w g', f.thaw g = (w, g') ∧ g'.freeze w = f := by
  intro v f
  have hloop := Copying.freeze_loopHeap
  have hfreeze : Copying.loopHeap.freeze v = f := by
    rw [freeze] at hloop ⊢
    simp [v, f, freezeAlong_list, hloop, freezeAlong]
  have hv : v.Within fun o => o = ⟨0⟩ := by
    refine .list (by decide) ?_
    simpa using ⟨.object rfl, .text (by decide), .int _, .bytes (by decide)⟩
  -- inside the list there are its members, and inside the object there is the object
  have hfloat : ∀ place bits, Copying.loopHeap.unfolding v place ≠ some (.float bits) := by
    intro place bits hshow
    obtain ⟨a, ha, hlabel⟩ := Option.map_eq_some_iff.1 hshow
    have hin : a = v ∨ a ∈ Copying.loopHeap.inside v := by
      refine of_at? (P := fun a => a = v ∨ a ∈ Copying.loopHeap.inside v) ?_ (.inl rfl) ha
      rintro b (rfl | hb) c hc
      · exact .inr hc
      · simp only [v, inside, List.mem_cons, List.not_mem_nil, or_false] at hb
        rcases hb with rfl | rfl | rfl | rfl
        · exact .inr (List.mem_singleton.1 hc ▸ List.mem_cons_self)
        all_goals cases hc
    simp only [v, inside, List.mem_cons, List.not_mem_nil, or_false] at hin
    rcases hin with rfl | rfl | rfl | rfl | rfl <;> cases hlabel
  have hnest : Json.nesting (Copying.loopHeap.json v) < Json.depthLimit := by
    rw [json_eq, (floatless_freeze hfloat).nesting_json, hfreeze]
    decide
  obtain ⟨hparse, hmake⟩ := json_reads_back Copying.region_loopHeap hv hfloat hnest
  rw [hfreeze] at hparse hmake
  refine ⟨hparse, fun g => ?_⟩
  obtain ⟨w, g', hthaw, hw, -⟩ := hmake g
  exact ⟨w, g', hthaw, hw⟩

end Heap

end ResultCache
