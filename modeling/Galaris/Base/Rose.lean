import Mathlib.Algebra.Order.BigOperators.Group.List
import Mathlib.Algebra.BigOperators.Group.List.Basic

/-! Trees whose nodes hold a value and have any number of children, and what happens in them.

A node is named by the positions on the way to it (`get?`). An operation may change the values of a tree and add
children, which come after those that are there: `Grows R F` says that the values there are related by `R` and
that what is new holds of `F` throughout. An event happens at one node (`Under`). -/
namespace Galaris

/-- A value with its children. -/
inductive Rose (α : Type)
  | node (value : α) (children : List (Rose α))

namespace Rose
variable {α : Type}

def value : Rose α → α
  | node a _ => a

def children : Rose α → List (Rose α)
  | node _ cs => cs

/-- The node at the end of a way. -/
def get? (t : Rose α) : List Nat → Option (Rose α)
  | [] => some t
  | i :: path => t.children[i]?.bind fun child => child.get? path

@[simp] theorem value_node (a : α) (cs : List (Rose α)) : (node a cs).value = a := rfl
@[simp] theorem children_node (a : α) (cs : List (Rose α)) : (node a cs).children = cs := rfl

mutual

/-- How many nodes a way down has, at most. -/
def height : Rose α → Nat
  | node _ cs => heights cs + 1

def heights : List (Rose α) → Nat
  | [] => 0
  | c :: cs => max c.height (heights cs)

end

mutual

/-- `P` holds of every value. -/
def All (P : α → Prop) : Rose α → Prop
  | node a cs => P a ∧ AllOf P cs

def AllOf (P : α → Prop) : List (Rose α) → Prop
  | [] => True
  | c :: cs => c.All P ∧ AllOf P cs

end

mutual

/-- The values are related where they are, and what is new holds of `F`. -/
def Grows (R : α → α → Prop) (F : α → Prop) : Rose α → Rose α → Prop
  | node a cs, node b ds => R a b ∧ GrowAll R F cs ds

def GrowAll (R : α → α → Prop) (F : α → Prop) : List (Rose α) → List (Rose α) → Prop
  | [], ds => AllOf F ds
  | _ :: _, [] => False
  | c :: cs, d :: ds => Grows R F c d ∧ GrowAll R F cs ds

end

section
variable {P Q : α → Prop} {R : α → α → Prop} {F : α → Prop}

theorem allOf_iff {cs : List (Rose α)} : AllOf P cs ↔ ∀ c ∈ cs, c.All P := by
  induction cs with
  | nil => exact ⟨fun _ _ hmem => absurd hmem List.not_mem_nil, fun _ => trivial⟩
  | cons c cs ih => rw [AllOf, ih, List.forall_mem_cons]

/-! ### Growth -/

theorem GrowAll.of_append {cs ds news : List (Rose α)} (h : GrowAll R F cs ds)
    (hnews : AllOf F news) : GrowAll R F cs (ds ++ news) := by
  induction cs generalizing ds with
  | nil =>
    refine allOf_iff.mpr fun c hc => ?_
    obtain hold | hnew := List.mem_append.mp hc
    · exact allOf_iff.mp h c hold
    · exact allOf_iff.mp hnews c hnew
  | cons c cs ih =>
    cases ds with
    | nil => exact absurd h id
    | cons d ds => exact ⟨h.1, ih h.2⟩

mutual

theorem Grows.refl (hrefl : ∀ a, R a a) : ∀ t : Rose α, Grows R F t t
  | node a cs => ⟨hrefl a, GrowAll.refl hrefl cs⟩

theorem GrowAll.refl (hrefl : ∀ a, R a a) : ∀ cs : List (Rose α), GrowAll R F cs cs
  | [] => trivial
  | c :: cs => ⟨Grows.refl hrefl c, GrowAll.refl hrefl cs⟩

end

mutual

/-- What is new stays so where the values change. -/
theorem All.grows (hfresh : ∀ a b, F a → R a b → F b) : ∀ {t u : Rose α}, t.All F → Grows R F t u → u.All F
  | node a _, node b _, ⟨ha, hcs⟩, ⟨hab, hall⟩ => ⟨hfresh a b ha hab, AllOf.growAll hfresh hcs hall⟩

theorem AllOf.growAll (hfresh : ∀ a b, F a → R a b → F b) :
    ∀ {cs ds : List (Rose α)}, AllOf F cs → GrowAll R F cs ds → AllOf F ds
  | [], _, _, hall => hall
  | _ :: _, [], _, hall => absurd hall id
  | _ :: _, _ :: _, ⟨hc, hcs⟩, ⟨hcd, hall⟩ => ⟨All.grows hfresh hc hcd, AllOf.growAll hfresh hcs hall⟩

end

mutual

theorem Grows.trans (htrans : ∀ a b c, R a b → R b c → R a c) (hfresh : ∀ a b, F a → R a b → F b) :
    ∀ {t u v : Rose α}, Grows R F t u → Grows R F u v → Grows R F t v
  | node _ _, node _ _, node _ _, ⟨hab, hall⟩, ⟨hbc, hall'⟩ =>
    ⟨htrans _ _ _ hab hbc, GrowAll.trans htrans hfresh hall hall'⟩

theorem GrowAll.trans (htrans : ∀ a b c, R a b → R b c → R a c) (hfresh : ∀ a b, F a → R a b → F b) :
    ∀ {cs ds es : List (Rose α)}, GrowAll R F cs ds → GrowAll R F ds es → GrowAll R F cs es
  | [], _, _, hall, hall' => AllOf.growAll hfresh hall hall'
  | _ :: _, [], _, hall, _ => absurd hall id
  | _ :: _, _ :: _, [], _, hall' => absurd hall' id
  | _ :: _, _ :: _, _ :: _, ⟨hcd, hall⟩, ⟨hde, hall'⟩ =>
    ⟨Grows.trans htrans hfresh hcd hde, GrowAll.trans htrans hfresh hall hall'⟩

end

mutual

theorem Grows.mono {S : α → α → Prop} (h : ∀ a b, R a b → S a b) : ∀ {t u : Rose α}, Grows R F t u → Grows S F t u
  | node a _, node b _, ⟨hab, hall⟩ => ⟨h a b hab, GrowAll.mono h hall⟩

theorem GrowAll.mono {S : α → α → Prop} (h : ∀ a b, R a b → S a b) :
    ∀ {cs ds : List (Rose α)}, GrowAll R F cs ds → GrowAll S F cs ds
  | [], _, hall => hall
  | _ :: _, [], hall => absurd hall id
  | _ :: _, _ :: _, ⟨hcd, hall⟩ => ⟨Grows.mono h hcd, GrowAll.mono h hall⟩

end

/-- One child grows. -/
theorem GrowAll.set (hrefl : ∀ a, R a a) {cs : List (Rose α)} {i : Nat} {c c' : Rose α}
    (hc : cs[i]? = some c) (h : Grows R F c c') :
    GrowAll R F cs (cs.set i c') := by
  induction cs generalizing i with
  | nil => exact nomatch hc
  | cons first cs ih =>
    cases i with
    | zero =>
      cases hc
      exact ⟨h, GrowAll.refl hrefl cs⟩
    | succ i => exact ⟨Grows.refl hrefl first, ih hc⟩

theorem GrowAll.map {f : Rose α → Rose α} (h : ∀ c, Grows R F c (f c)) (cs : List (Rose α)) :
    GrowAll R F cs (cs.map f) := by
  induction cs with
  | nil => trivial
  | cons c cs ih => exact ⟨h c, ih⟩

/-- What the children weigh does not change where the values keep their weights and what is new has none. -/
theorem GrowAll.sum_eq {M : Type} [AddCommMonoid M] {w : α → M} (hR : ∀ a b, R a b → w b = w a)
    (hF : ∀ a, F a → w a = 0) {cs ds : List (Rose α)} (h : GrowAll R F cs ds) :
    (ds.map fun d => w d.value).sum = (cs.map fun c => w c.value).sum := by
  induction cs generalizing ds with
  | nil =>
    rw [List.map_nil, List.sum_nil]
    refine List.sum_eq_zero fun x hx => ?_
    obtain ⟨d, hd, rfl⟩ := List.mem_map.mp hx
    have hall := allOf_iff.mp h d hd
    cases d
    exact hF _ hall.1
  | cons c cs ih =>
    cases ds with
    | nil => exact absurd h id
    | cons d ds =>
      rw [List.map_cons, List.map_cons, List.sum_cons, List.sum_cons, ih h.2]
      cases c
      cases d
      rw [value_node, value_node, hR _ _ h.1.1]

end

/-! ### Events -/

/-- An event happens at the node at the end of a way. -/
inductive Under {ι : Type} (step : Rose α → ι → Rose α → Prop) : Rose α → List Nat × ι → Rose α → Prop
  | here {t u : Rose α} {e : ι} : step t e u → Under step t ([], e) u
  | inside {a : α} {cs : List (Rose α)} {i : Nat} {path : List Nat} {c d : Rose α} {e : ι} :
    cs[i]? = some c → Under step c (path, e) d →
      Under step (node a cs) (i :: path, e) (node a (cs.set i d))

end Rose
end Galaris
