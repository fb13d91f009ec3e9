import Galaris.Base.Coding
import Galaris.Process.Bpmn.Codec
import Galaris.Process.JsonCoding

/-! Libraries that write given values as given texts.

Elements can be numbered, as JSON values can, so that every other value has a text of its
own, and each text is read back. -/
namespace Galaris.Process.Bpmn

open Coding

instance : Countable Namespace := Function.Injective.countable (f := Namespace.ctorIdx) fun x y h => by
  cases x <;> cases y <;> first | rfl | cases h

instance : Countable Tag := Function.Injective.countable (f := fun tag => (tag.ns, tag.name)) fun ⟨_, _⟩ ⟨_, _⟩ h => by
  cases h; rfl

mutual

noncomputable def Element.numbered : Element → Nat
  | .mk tag attrib text children => Nat.pair (index (tag, attrib, text)) (Element.numberedAll children)

noncomputable def Element.numberedAll : List Element → Nat
  | [] => 0
  | element :: rest => Nat.pair element.numbered (Element.numberedAll rest) + 1

end

mutual

theorem Element.numbered_inj : ∀ {x y : Element}, x.numbered = y.numbered → x = y
  | .mk _ _ _ xs, .mk _ _ _ ys, h => by
    simp only [Element.numbered, Nat.pair_eq_pair] at h
    cases index_injective h.1
    rw [Element.numberedAll_inj h.2]

theorem Element.numberedAll_inj : ∀ {xs ys : List Element}, Element.numberedAll xs = Element.numberedAll ys → xs = ys
  | [], [], _ => rfl
  | [], _ :: _, h => by simp [Element.numberedAll] at h
  | _ :: _, [], h => by simp [Element.numberedAll] at h
  | x :: xs, y :: ys, h => by
    simp only [Element.numberedAll, Nat.add_right_cancel_iff, Nat.pair_eq_pair] at h
    rw [Element.numbered_inj h.1, Element.numberedAll_inj h.2]

end

instance : Countable Element := Function.Injective.countable fun _ _ h => Element.numbered_inj h

/-! ### Libraries -/

/-- Libraries that write the given JSON values and elements as the given texts. -/
noncomputable def libraries {jsons : List (Json × String)} {elements : List (Element × String)}
    (hjsons : Distinct jsons) (hempty : ∀ entry ∈ jsons, entry.2 ≠ "") (helements : Distinct elements) : Libraries :=
  let floats : List (Rat × String) := [(0, "0.0"), (80, "80.0"), (35, "35.0")]
  have hfloats : Distinct floats := ⟨by decide, by decide⟩
  { parseResourceUri := fun uri => .ok {text := uri}
    jsonSize := fun _ => 64
    parseExpression := fun source => if source == "" then .error "Invalid expression syntax" else .ok ()
    str := fun _ => ""
    parseExpression_empty := nofun
    dumps := text jsons
    loads := Function.partialInv (text jsons)
    loads_dumps := fun _ => Function.partialInv_left (text_injective hjsons) _
    loads_empty := by
      rw [Option.eq_none_iff_forall_ne_some]
      intro json hjson
      exact text_ne_empty hempty json (((text_injective hjsons).isPartialInv json "").mp hjson)
    floatText := text floats
    parseFloat := Function.partialInv (text floats)
    parseFloat_floatText := Function.partialInv_left (text_injective hfloats)
    addFloat := fun x n => x + n
    serialize := text elements
    parseXml := Function.partialInv (text elements)
    parseXml_serialize := Function.partialInv_left (text_injective helements)
    prohibited := fun _ => false
    prohibited_serialize := fun _ => rfl }

end Galaris.Process.Bpmn
