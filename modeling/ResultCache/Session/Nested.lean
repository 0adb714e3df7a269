import ResultCache.Session.Assembly

/-!
# Nested queries

Objects can have properties that are results of further queries: a nested select runs a statement
with a column of the object as its parameter. If the session already holds the result, or is still
loading it further out, the property is deferred, which sets it from what the session holds;
otherwise the query is run at once. So a result that leads back to a row which is still being made
ends there, and the property is set when that row is complete.
-/
namespace ResultCache

/-- A property that another statement fills, with a column as its parameter. -/
structure NestedSelect where
  property : String
  column : String
  statement : Statement
  target : Session.Target

namespace NestedSelect

variable {τ : Type}

/-- Fills one property of an object. -/
def fill (n : NestedSelect) (o : ObjId) : Assembly τ Unit :=
  .heap fun h =>
    let q := Query.ofStatement n.statement (.ofOption (h.read o n.column)) .unbounded
    (Assembly.need (.key q)).bind fun k =>
      (Assembly.need (.isLoaded k)).bind fun loaded =>
        if loaded then Assembly.need (.defer ⟨o, n.property, k, n.target⟩)
        else
          (Assembly.ask (.query q (some k) false)).bind fun reply =>
            (Assembly.done (reply.result.bind n.target.extract)).bind fun v =>
              .write o n.property v (.done (.ok ()))

/-- Fills properties of an object, in order. -/
def fillAll (o : ObjId) : List NestedSelect → Assembly τ Unit
  | [] => .done (.ok ())
  | n :: ns => (n.fill o).bind fun _ => fillAll o ns

/-- Makes an object of every row and fills its properties before the next row. -/
def objects (ns : List NestedSelect) : List Record → Assembly τ (List Value)
  | [] => .done (.ok [])
  | r :: rs =>
    .alloc r fun o =>
      (fillAll o ns).bind fun _ =>
        (objects ns rs).bind fun vs => .done (.ok (.object o :: vs))

end NestedSelect

/-- Every row becomes an object with its columns and the nested properties of its statement. -/
def Materializer.nested (τ : Type) (ns : String → List NestedSelect) : Materializer τ :=
  fun st rs => NestedSelect.objects (ns st.id) rs

end ResultCache
