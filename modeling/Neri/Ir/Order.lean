import Neri.Ir.Module
import Neri.Ir.Text

/-!
# The canonical order of declarations (`order.hk`, `ir_order_list.hk`, `render.hk`)

Before a module is written, its declarations are put into linked lists of order nodes and sorted by
merging: first by a primary number, then by name, then by the position they were added at.
-/

namespace Neri.Ir

open List

/-- `IrOrderNode`: the links of the list are the list. -/
structure IrOrderNode (T : Type) where
  value : T
  primary : Nat
  name : String
  ordinal : Nat

variable {T : Type}

def irOrderBeforeOrEqual (left right : IrOrderNode T) : Bool :=
  if left.primary ≠ right.primary then decide (left.primary < right.primary)
  else
    let names := irCompareText left.name right.name
    if names ≠ 0 then decide (names < 0)
    else decide (left.ordinal ≤ right.ordinal)

/-- The loop of `irOrderSplit`. The nodes up to `slow` are `left`, the last first, those behind it
are `right`, and `fast` runs ahead by two nodes for each node that `slow` passes. -/
def irOrderSplitLoop (left right : List (IrOrderNode T)) :
    List (IrOrderNode T) → List (IrOrderNode T) × List (IrOrderNode T)
  | [] => (left.reverse, right)
  | [_] => (left.reverse, right)
  | _ :: _ :: fast =>
    match right with
    | slow :: right => irOrderSplitLoop (slow :: left) right fast
    | [] => irOrderSplitLoop left [] fast

/-- `irOrderSplit`: the list that starts with `head`, cut behind `slow`. -/
def irOrderSplit (head : IrOrderNode T) (next : List (IrOrderNode T)) :
    List (IrOrderNode T) × List (IrOrderNode T) :=
  irOrderSplitLoop [head] next next

theorem irOrderSplitLoop_append (left right fast : List (IrOrderNode T)) :
    (irOrderSplitLoop left right fast).1 ++ (irOrderSplitLoop left right fast).2 =
      left.reverse ++ right := by
  fun_induction irOrderSplitLoop left right fast with
  | case1 => rfl
  | case2 => rfl
  | case3 left _ _ fast slow right ih =>
    rw [ih, reverse_cons, append_assoc, singleton_append]
  | case4 left _ _ fast ih => exact ih

/-- Both parts are shorter: the left one keeps its first node, and `slow` never reaches the end. -/
theorem irOrderSplitLoop_lengths (left right fast : List (IrOrderNode T)) (hleft : left ≠ [])
    (hright : right ≠ []) (hfast : fast.length ≤ right.length) :
    0 < (irOrderSplitLoop left right fast).1.length ∧
      0 < (irOrderSplitLoop left right fast).2.length := by
  fun_induction irOrderSplitLoop left right fast with
  | case1 left right =>
    exact ⟨by simpa using length_pos_iff.mpr hleft, length_pos_iff.mpr hright⟩
  | case2 left right =>
    exact ⟨by simpa using length_pos_iff.mpr hleft, length_pos_iff.mpr hright⟩
  | case3 left _ _ fast slow right ih =>
    simp only [length_cons] at hfast
    refine ih (cons_ne_nil _ _) ?_ (by omega)
    exact length_pos_iff.mp (by omega)
  | case4 => exact absurd rfl hright

/-- `irOrderMerge`: on equal terms the left node comes first. -/
def irOrderMerge : List (IrOrderNode T) → List (IrOrderNode T) → List (IrOrderNode T)
  | [], right => right
  | left, [] => left
  | left :: lefts, right :: rights =>
    if irOrderBeforeOrEqual left right then left :: irOrderMerge lefts (right :: rights)
    else right :: irOrderMerge (left :: lefts) rights
termination_by left right => left.length + right.length

def irOrderSort : List (IrOrderNode T) → List (IrOrderNode T)
  | [] => []
  | [head] => [head]
  | head :: next :: rest =>
    irOrderMerge (irOrderSort (irOrderSplit head (next :: rest)).1)
      (irOrderSort (irOrderSplit head (next :: rest)).2)
termination_by nodes => nodes.length
decreasing_by
  all_goals
    have happend := congrArg length (irOrderSplitLoop_append [head] (next :: rest) (next :: rest))
    have hlengths := irOrderSplitLoop_lengths [head] (next :: rest) (next :: rest)
      (cons_ne_nil _ _) (cons_ne_nil _ _) le_rfl
    simp only [length_append, length_reverse, length_cons, length_nil]
      at happend
    simp only [irOrderSplit, length_cons]
    omega

/-- The values in canonical order: an `IrOrderList` to which they are added one by one, sorted. -/
def ordered (values : List T) (primary : T → Nat) (name : T → String) : List T :=
  (irOrderSort (values.zipIdx.map fun value =>
    { value := value.1
      primary := primary value.1
      name := name value.1
      ordinal := value.2 })).map (·.value)

def irOrderedClasses (m : IrModule) : List IrClass :=
  ordered m.classes (fun _ => 0) (·.symbol.name)

def irOrderedGlobals (m : IrModule) : List IrGlobal :=
  ordered m.globals (fun _ => 0) (·.symbol.name)

def irOrderedImports (m : IrModule) : List IrImport :=
  ordered m.imports (·.symbol.kind.wireCode) (·.symbol.name)

def irOrderedFunctions (m : IrModule) : List IrFunction :=
  ordered m.functions (·.symbol.kind.wireCode) (·.symbol.name)

def irOrderedSources (m : IrModule) : List IrSource :=
  ordered m.sources (fun _ => 0) (·.id)

end Neri.Ir
