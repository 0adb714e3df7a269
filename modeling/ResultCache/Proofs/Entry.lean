import ResultCache.Entry
import ResultCache.Proofs.Value.Copies

/-!
# What entries show

The content of an entry is the entry with its rows frozen: all that a reader can see of it who does
not change objects. `Entry.Stands` relates an entry to a content where rows may also be stored as
bytes, and says besides that the objects of the rows lie in a region, so the content stays the same
while nothing in that region changes (`Stands.of_agreeOn`).
-/
namespace ResultCache

inductive Content where
  | absence
  | loading
  | rows (fs : List Frozen)
  | encoded (bs : List UInt8)

namespace Entry

/-- The entry with its rows frozen. -/
def content (h : Heap) : Entry → Content
  | .absence => .absence
  | .loading => .loading
  | .rows vs => .rows (vs.map h.freeze)
  | .encoded bs => .encoded bs

/-- An entry stands for a content, and its objects are in `K`. Where entries are `coded`, bytes
stand for the rows that they decode to. -/
inductive Stands (coded : Bool) (K : ObjId → Prop) (h : Heap) : Entry → Content → Prop where
  | absence : Stands coded K h .absence .absence
  | loading : Stands coded K h .loading .loading
  | rows {vs : List Value} (hvs : ∀ v ∈ vs, v.Within K) (hlen : vs.length < 2 ^ 64) :
      Stands coded K h (.rows vs) (.rows (vs.map h.freeze))
  | encoded {bs : List UInt8} {fs : List Frozen} (hcoded : coded = true)
      (hbs : Frozen.decodeRows bs = .ok fs) (hfs : ∀ f ∈ fs, f.Regular)
      (hlen : fs.length < 2 ^ 64) : Stands coded K h (.encoded bs) (.rows fs)

/-- An entry as a caller can have it: not in encoded form, and its rows lead only to objects that
exist. -/
def Plain (h : Heap) (e : Entry) : Prop := ∃ K c, h.Region K ∧ e.Stands false K h c

variable {coded : Bool} {K L : ObjId → Prop} {h h' : Heap} {e : Entry} {c : Content}

theorem Stands.mono (hKL : ∀ o, K o → L o) (he : e.Stands coded K h c) : e.Stands coded L h c := by
  cases he with
  | absence => exact .absence
  | loading => exact .loading
  | rows hvs hlen => exact .rows (fun v hv => (hvs v hv).mono hKL) hlen
  | encoded hcoded hbs hfs hlen => exact .encoded hcoded hbs hfs hlen

/-- Only changes in the region change what an entry stands for. -/
theorem Stands.of_agreeOn (hK : h.Region K) (hh : Heap.AgreeOn K h h')
    (he : e.Stands coded K h c) : e.Stands coded K h' c := by
  cases he with
  | absence => exact .absence
  | loading => exact .loading
  | rows hvs hlen =>
    rw [← Heap.map_freeze_congr hK hh hvs]
    exact .rows hvs hlen
  | encoded hcoded hbs hfs hlen => exact .encoded hcoded hbs hfs hlen

/-- Rows that were made of frozen ones stand for them. -/
theorem stands_of_made {vs : List Value} {fs : List Frozen} (hvs : Heap.Made h h' vs fs)
    (hlen : fs.length < 2 ^ 64) : (Entry.rows vs).Stands coded (h.Fresh h') h' (.rows fs) := by
  have hrows : (Entry.rows vs).Stands coded (h.Fresh h') h' (.rows (vs.map h'.freeze)) := by
    refine .rows hvs.within ?_
    rw [← hvs.freeze, List.length_map] at hlen
    exact hlen
  rwa [hvs.freeze] at hrows

/-- Where nothing is coded an entry stands for its own content. -/
theorem Stands.eq_content (he : e.Stands false K h c) : c = e.content h := by
  cases he with
  | absence => rfl
  | loading => rfl
  | rows _ _ => rfl
  | encoded hcoded _ _ _ => cases hcoded

end Entry
end ResultCache
