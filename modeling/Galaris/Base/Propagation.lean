import Mathlib.Algebra.BigOperators.Group.Finset.Basic
import Mathlib.Algebra.Order.BigOperators.Group.Finset
import Mathlib.Data.Finset.Card
import Mathlib.Logic.Function.Basic
import Mathlib.Logic.Relation
import Mathlib.Order.Bounds.Basic

/-! Propagation of values along the edges of a finite graph, with a queue.

A node is taken from the queue and merged into each of its targets; a target whose value
changed is queued, unless it is. The queue empties after a bounded number of turns
(`run_terminates`), whatever the order of the nodes and of the edges, and a node then has the
join of the first values of the nodes that reach it (`final_value`): the least values above
the first ones that grow along every edge. What a node received is the join of what its
sources have at the end (`final_received`).

The nodes may carry more than their value: `Rules` says what `merge` has to do with it. -/
namespace Propagation

variable {ι σ α β : Type} [DecidableEq ι] [SemilatticeSup α] [SemilatticeSup β]

/-- A merge of a source into a node joins the value of the node with that of the source, tells
whether it changed it, and joins what the node received with a part of the value of the source. -/
structure Rules (σ α β : Type) [SemilatticeSup α] [SemilatticeSup β] where
  merge : σ → σ → σ × Bool
  value : σ → α
  received : σ → β
  part : α → β
  part_mono : Monotone part
  value_merge : ∀ node source, value (merge node source).1 = value node ⊔ value source
  changed_merge : ∀ node source, (merge node source).2 = false ↔ value source ≤ value node
  received_merge : ∀ node source, received (merge node source).1 = received node ⊔ part (value source)

structure State (ι σ : Type) where
  at' : ι → σ
  pending : List ι

section Algorithm
variable (merge : σ → σ → σ × Bool)

/-- The source is merged into one target. -/
def visit (source : ι) (s : State ι σ) (target : ι) : State ι σ :=
  let merged := merge (s.at' target) (s.at' source)
  { at' := Function.update s.at' target merged.1
    pending := if merged.2 && target ∉ s.pending then s.pending ++ [target] else s.pending }

/-- One node is taken from the queue and visits its targets. -/
def turn (edges : ι → List ι) (s : State ι σ) : State ι σ :=
  match s.pending with
  | [] => s
  | source :: rest => (edges source).foldl (visit merge source) {s with pending := rest}

def run (edges : ι → List ι) : Nat → State ι σ → State ι σ
  | 0, s => s
  | fuel + 1, s => run edges fuel (turn merge edges s)

end Algorithm

/-! ### What a run keeps -/

variable (R : Rules σ α β) (edges : ι → List ι) (init : ι → σ) (nodes : Finset ι)

/-- The value of the source has reached the target. -/
def Stable (s : State ι σ) (source target : ι) : Prop :=
  R.value (s.at' source) ≤ R.value (s.at' target) ∧ R.part (R.value (s.at' source)) ≤ R.received (s.at' target)

def Reaches : ι → ι → Prop := Relation.ReflTransGen fun source target => target ∈ edges source

/-- Between two visits: the values are joins of first values that reach their node, they contain
the first value of the node, and what was received comes from the sources; every edge is stable
unless its source is in the queue, or is one of the `open'` edges that are still to be visited. -/
structure Inv (open' : ι → ι → Prop) (s : State ι σ) : Prop where
  join : ∀ node ∈ nodes, ∃ from' : Set ι, (∀ w ∈ from', w ∈ nodes ∧ Reaches edges w node) ∧
    IsLUB ((fun w => R.value (init w)) '' from') (R.value (s.at' node))
  grows : ∀ node, R.value (init node) ≤ R.value (s.at' node)
  received : ∀ node bound, (∀ source, node ∈ edges source → R.part (R.value (s.at' source)) ≤ bound) →
    R.received (s.at' node) ≤ bound
  stable : ∀ source target, target ∈ edges source → source ∉ s.pending → ¬ open' source target →
    Stable R s source target
  pending : ∀ node ∈ s.pending, node ∈ nodes

variable {R edges init nodes}

/-- A visit closes its edge. -/
theorem Inv.visit {open' : ι → ι → Prop} {s : State ι σ} (h : Inv R edges init nodes open' s) {source target : ι}
    (hedge : target ∈ edges source) (hin : source ∈ nodes) (htarget : target ∈ nodes) :
    Inv R edges init nodes (fun u v => open' u v ∧ ¬ (u = source ∧ v = target)) (visit R.merge source s target) := by
  have hvalue : ∀ node, R.value ((Propagation.visit R.merge source s target).at' node) =
      if node = target then R.value (s.at' target) ⊔ R.value (s.at' source) else R.value (s.at' node) := by
    intro node
    simp only [Propagation.visit, Function.update_apply]
    split
    · exact R.value_merge _ _
    · rfl
  have hreceived : ∀ node, R.received ((Propagation.visit R.merge source s target).at' node) =
      if node = target then R.received (s.at' target) ⊔ R.part (R.value (s.at' source))
          else R.received (s.at' node) := by
    intro node
    simp only [Propagation.visit, Function.update_apply]
    split
    · exact R.received_merge _ _
    · rfl
  have hle : ∀ node, R.value (s.at' node) ≤ R.value ((Propagation.visit R.merge source s target).at' node) := by
    intro node
    rw [hvalue]
    split
    case isTrue heq =>
      subst heq
      exact le_sup_left
    case isFalse => exact le_rfl
  have hreceivedle : ∀ node, R.received (s.at' node) ≤ R.received
      ((Propagation.visit R.merge source s target).at' node) := by
    intro node
    rw [hreceived]
    split
    case isTrue heq =>
      subst heq
      exact le_sup_left
    case isFalse => exact le_rfl
  have hsource : R.value ((Propagation.visit R.merge source s target).at' source) = R.value (s.at' source) := by
    rw [hvalue]
    split
    case isTrue heq =>
      subst heq
      exact sup_idem _
    case isFalse => rfl
  refine ⟨fun node hnode => ?_, fun node => (h.grows node).trans (hle node), fun node bound hbound => ?_,
    fun u v huv hu hopen => ?_, fun node hnode => ?_⟩
  · rw [hvalue]
    split
    case isTrue heq =>
      subst heq
      obtain ⟨mine, hmine, hlub⟩ := h.join node hnode
      obtain ⟨theirs, htheirs, hlub'⟩ := h.join source hin
      refine ⟨mine ∪ theirs, fun w hw => ?_, ?_⟩
      · obtain hw | hw := hw
        · exact hmine w hw
        · exact ⟨(htheirs w hw).1, (htheirs w hw).2.tail hedge⟩
      · rw [Set.image_union]
        exact hlub.union hlub'
    case isFalse => exact h.join node hnode
  · have hold : ∀ u, node ∈ edges u → R.part (R.value (s.at' u)) ≤ bound := fun u hu =>
      (R.part_mono (hle u)).trans (hbound u hu)
    rw [hreceived]
    split
    case isTrue heq =>
      subst heq
      exact sup_le (h.received node bound hold) (hold source hedge)
    case isFalse => exact h.received node bound hold
  · by_cases hthis : u = source ∧ v = target
    · obtain ⟨rfl, rfl⟩ := hthis
      refine ⟨?_, ?_⟩
      · rw [hsource, hvalue, if_pos rfl]
        exact le_sup_right
      · rw [hsource, hreceived, if_pos rfl]
        exact le_sup_right
    · have hopen : ¬ open' u v := fun ho => hopen ⟨ho, hthis⟩
      -- A node whose value changed is in the queue, so that its edges need not be stable.
      have hbefore : u ∉ s.pending ∧
          R.value ((Propagation.visit R.merge source s target).at' u) = R.value (s.at' u) := by
        cases hchanged : (R.merge (s.at' target) (s.at' source)).2 with
        | false =>
          refine ⟨by simpa [Propagation.visit, hchanged] using hu, ?_⟩
          rw [hvalue]
          split
          case isTrue heq =>
            subst heq
            exact sup_eq_left.mpr ((R.changed_merge _ _).mp hchanged)
          case isFalse => rfl
        | true =>
          have hpending : u ∉ s.pending ∧ u ≠ target := by
            simp only [Propagation.visit, hchanged, Bool.true_and, decide_eq_true_eq] at hu
            split at hu
            case isTrue =>
              exact ⟨fun hmem => hu (List.mem_append_left _ hmem),
                fun heq => hu (heq ▸ List.mem_concat_self)⟩
            case isFalse hmem =>
              refine ⟨hu, fun heq => ?_⟩
              rw [Decidable.not_not] at hmem
              exact hu (heq ▸ hmem)
          refine ⟨hpending.1, ?_⟩
          rw [hvalue, if_neg hpending.2]
      obtain ⟨hstable, hgiven⟩ := h.stable u v huv hbefore.1 hopen
      exact ⟨hbefore.2 ▸ hstable.trans (hle v), hbefore.2 ▸ hgiven.trans (hreceivedle v)⟩
  · simp only [Propagation.visit] at hnode
    split at hnode
    · obtain hnode | hnode := List.mem_append.mp hnode
      · exact h.pending node hnode
      · rw [List.mem_singleton.mp hnode]
        exact htarget
    · exact h.pending node hnode

/-- The visits of one turn close the edges of the node that was taken. -/
theorem Inv.visits {source : ι} {targets : List ι} {s : State ι σ} (hsub : ∀ target ∈ targets, target ∈ edges source)
    (hin : source ∈ nodes) (hnodes : ∀ target ∈ edges source, target ∈ nodes)
    (h : Inv R edges init nodes (fun u v => u = source ∧ v ∈ targets) s) :
    Inv R edges init nodes (fun _ _ => False) (targets.foldl (Propagation.visit R.merge source) s) := by
  induction targets generalizing s with
  | nil =>
    refine ⟨h.join, h.grows, h.received, fun u v huv hu _ => h.stable u v huv hu ?_, h.pending⟩
    exact fun ⟨_, hmem⟩ => List.not_mem_nil hmem
  | cons target rest ih =>
    have hedge := hsub target List.mem_cons_self
    have hvisited := h.visit hedge hin (hnodes target hedge)
    refine ih (fun v hv => hsub v (List.mem_cons_of_mem _ hv)) ?_
    refine ⟨hvisited.join, hvisited.grows, hvisited.received, fun u v huv hu hopen => hvisited.stable u v huv hu ?_,
      hvisited.pending⟩
    rintro ⟨⟨rfl, hmem⟩, hne⟩
    obtain rfl | hrest := List.mem_cons.mp hmem
    · exact hne ⟨rfl, rfl⟩
    · exact hopen ⟨rfl, hrest⟩

theorem Inv.turn (hnodes : ∀ source ∈ nodes, ∀ target ∈ edges source, target ∈ nodes) {s : State ι σ}
    (h : Inv R edges init nodes (fun _ _ => False) s) :
    Inv R edges init nodes (fun _ _ => False) (Propagation.turn R.merge edges s) := by
  unfold Propagation.turn
  split
  · exact h
  case h_2 source rest hpending =>
    have hsource : source ∈ nodes := h.pending source (hpending ▸ List.mem_cons_self)
    refine Inv.visits (fun _ hmem => hmem) hsource (hnodes source hsource)
      ⟨h.join, h.grows, h.received, fun u v huv hu hopen => ?_,
      fun node hnode => h.pending node (hpending ▸ List.mem_cons_of_mem _ hnode)⟩
    refine h.stable u v huv (fun hmem => ?_) not_false
    rw [hpending] at hmem
    obtain rfl | hrest := List.mem_cons.mp hmem
    · exact hopen ⟨rfl, huv⟩
    · exact hu hrest

omit [DecidableEq ι] in
/-- Every node is queued at the start, with nothing received. -/
theorem Inv.start (hreceived : ∀ node bound, R.received (init node) ≤ bound) {pending : List ι}
    (hpending : ∀ node, node ∈ pending ↔ node ∈ nodes)
    (hnodes : ∀ source target, target ∈ edges source → source ∈ nodes) :
    Inv R edges init nodes (fun _ _ => False) ⟨init, pending⟩ where
  join node hnode := by
    refine ⟨{node}, fun w hw => ?_, ?_⟩
    · rw [Set.mem_singleton_iff.mp hw]
      exact ⟨hnode, .refl⟩
    · rw [Set.image_singleton]
      exact isLUB_singleton
  grows _ := le_rfl
  received node bound _ := hreceived node bound
  stable source target hedge hsource _ := absurd ((hpending source).mpr (hnodes source target hedge)) hsource
  pending node hnode := (hpending node).mp hnode

/-! ### The queue empties -/

open Classical in
/-- The first values that a node does not contain yet. -/
noncomputable def missing (R : Rules σ α β) (init : ι → σ) (nodes : Finset ι) (s : State ι σ) (node : ι) : Finset ι :=
  nodes.filter fun w => ¬ R.value (init w) ≤ R.value (s.at' node)

omit [DecidableEq ι] in
theorem mem_missing {s : State ι σ} {node w : ι} :
    w ∈ missing R init nodes s node ↔ w ∈ nodes ∧ ¬ R.value (init w) ≤ R.value (s.at' node) := by
  classical
  exact Finset.mem_filter

/-- What may still happen: the nodes in the queue and the first values that are missing somewhere. -/
noncomputable def left' (R : Rules σ α β) (init : ι → σ) (nodes : Finset ι) (s : State ι σ) : Nat :=
  s.pending.length + ∑ node ∈ nodes, (missing R init nodes s node).card

/-- A visit queues a node only when a first value arrives there. -/
theorem Inv.visit_left {open' : ι → ι → Prop} {s : State ι σ} (h : Inv R edges init nodes open' s) {source target : ι}
    (hin : source ∈ nodes) (htarget : target ∈ nodes) :
    left' R init nodes (Propagation.visit R.merge source s target) ≤ left' R init nodes s := by
  have hmissing : ∀ node, missing R init nodes
      (Propagation.visit R.merge source s target) node ⊆ missing R init nodes s node := by
    intro node w hw
    rw [mem_missing] at hw ⊢
    refine ⟨hw.1, fun hle => hw.2 ?_⟩
    simp only [Propagation.visit, Function.update_apply]
    split
    case isTrue heq =>
      subst heq
      rw [R.value_merge]
      exact le_sup_of_le_left hle
    case isFalse => exact hle
  have hsum : ∑ node ∈ nodes, (missing R init nodes (Propagation.visit R.merge source s target) node).card ≤
      ∑ node ∈ nodes, (missing R init nodes s node).card :=
    Finset.sum_le_sum fun node _ => Finset.card_le_card (hmissing node)
  cases hchanged : (R.merge (s.at' target) (s.at' source)).2 with
  | false =>
    have hpending : (Propagation.visit R.merge source s target).pending = s.pending := by
      simp [Propagation.visit, hchanged]
    unfold left'
    rw [hpending]
    exact Nat.add_le_add_left hsum _
  | true =>
    have hnew : ¬ R.value (s.at' source) ≤ R.value (s.at' target) := by
      rw [← R.changed_merge, hchanged]
      exact nofun
    obtain ⟨from', hfrom, hlub⟩ := h.join source hin
    -- One of the first values that the source has is missing in the target.
    obtain ⟨w, hw, hlost⟩ : ∃ w ∈ from', ¬ R.value (init w) ≤ R.value (s.at' target) := by
      by_contra hnone
      push Not at hnone
      exact hnew (hlub.2 fun _ ⟨w, hw, heq⟩ => heq ▸ hnone w hw)
    have harrived : R.value (init w) ≤ R.value ((Propagation.visit R.merge source s target).at' target) := by
      simp only [Propagation.visit, Function.update_self, R.value_merge]
      exact le_sup_of_le_right (hlub.1 ⟨w, hw, rfl⟩)
    have hless : ∑ node ∈ nodes, (missing R init nodes (Propagation.visit R.merge source s target) node).card <
        ∑ node ∈ nodes, (missing R init nodes s node).card := by
      refine Finset.sum_lt_sum (fun node _ => Finset.card_le_card (hmissing node)) ⟨target, htarget, ?_⟩
      refine Finset.card_lt_card ⟨hmissing target, fun hback => ?_⟩
      have hmem : w ∈ missing R init nodes s target := mem_missing.mpr ⟨(hfrom w hw).1, hlost⟩
      exact (mem_missing.mp (hback hmem)).2 harrived
    have hpending : (Propagation.visit R.merge source s target).pending.length ≤ s.pending.length + 1 := by
      simp only [Propagation.visit]
      split
      · rw [List.length_append, List.length_singleton]
      · exact Nat.le_succ _
    unfold left'
    omega

theorem Inv.visits_left {source : ι} {targets : List ι} {s : State ι σ}
    (hsub : ∀ target ∈ targets, target ∈ edges source)
    (hin : source ∈ nodes) (hnodes : ∀ target ∈ edges source, target ∈ nodes)
    {open' : ι → ι → Prop} (h : Inv R edges init nodes open' s) :
    left' R init nodes (targets.foldl (Propagation.visit R.merge source) s) ≤ left' R init nodes s := by
  induction targets generalizing s open' with
  | nil => exact le_rfl
  | cons target rest ih =>
    have hedge := hsub target List.mem_cons_self
    have htarget := hnodes target hedge
    exact (ih (fun v hv => hsub v (List.mem_cons_of_mem _ hv)) (h.visit hedge hin htarget)).trans
      (h.visit_left hin htarget)

theorem Inv.turn_left (hnodes : ∀ source ∈ nodes, ∀ target ∈ edges source, target ∈ nodes) {s : State ι σ}
    (h : Inv R edges init nodes (fun _ _ => False) s) (hpending : s.pending ≠ []) :
    left' R init nodes (Propagation.turn R.merge edges s) < left' R init nodes s := by
  unfold Propagation.turn
  split
  case h_1 hnil => exact absurd hnil hpending
  case h_2 source rest heq =>
    have hsource : source ∈ nodes := h.pending source (heq ▸ List.mem_cons_self)
    have hopen : Inv R edges init nodes (fun u _ => u = source) {s with pending := rest} := by
      refine ⟨h.join, h.grows, h.received, fun u v huv hu hopen => h.stable u v huv (fun hmem => ?_) not_false,
        fun node hnode => h.pending node (heq ▸ List.mem_cons_of_mem _ hnode)⟩
      rw [heq] at hmem
      obtain rfl | hrest := List.mem_cons.mp hmem
      · exact hopen rfl
      · exact hu hrest
    refine (hopen.visits_left (fun _ hmem => hmem) hsource (hnodes source hsource)).trans_lt ?_
    have hlength : s.pending.length = rest.length + 1 := by rw [heq, List.length_cons]
    show rest.length + _ < s.pending.length + _
    rw [hlength]
    exact Nat.add_lt_add_right (Nat.lt_succ_self _) _

theorem run_of_empty (merge : σ → σ → σ × Bool) {s : State ι σ} (hpending : s.pending = []) (fuel : Nat) :
    Propagation.run merge edges fuel s = s := by
  induction fuel with
  | zero => rfl
  | succ fuel ih =>
    have hturn : Propagation.turn merge edges s = s := by
      unfold Propagation.turn
      rw [hpending]
    show Propagation.run merge edges fuel (Propagation.turn merge edges s) = s
    rw [hturn]
    exact ih

/-- With enough fuel the queue is empty at the end, and the invariant holds. -/
theorem Inv.run (hnodes : ∀ source ∈ nodes, ∀ target ∈ edges source, target ∈ nodes) {fuel : Nat} {s : State ι σ}
    (h : Inv R edges init nodes (fun _ _ => False) s) (hfuel : left' R init nodes s ≤ fuel) :
    (Propagation.run R.merge edges fuel s).pending = [] ∧
      Inv R edges init nodes (fun _ _ => False) (Propagation.run R.merge edges fuel s) := by
  induction fuel generalizing s with
  | zero =>
    have hlength : s.pending.length = 0 := by
      unfold left' at hfuel
      omega
    exact ⟨List.length_eq_zero_iff.mp hlength, h⟩
  | succ fuel ih =>
    by_cases hpending : s.pending = []
    · rw [run_of_empty R.merge hpending]
      exact ⟨hpending, h⟩
    · have hless := h.turn_left hnodes hpending
      exact ih (h.turn hnodes) (by omega)

/-- What a merge keeps of a node, a run keeps. -/
theorem run_keeps {merge : σ → σ → σ × Bool} {K : ι → σ → Prop}
    (hmerge : ∀ node a b, K node a → K node (merge a b).1) {fuel : Nat} {s : State ι σ}
    (h : ∀ node, K node (s.at' node))
    (node : ι) : K node ((Propagation.run merge edges fuel s).at' node) := by
  have hvisit : ∀ (source target : ι) (s : State ι σ), (∀ node, K node (s.at' node)) →
      ∀ node, K node ((Propagation.visit merge source s target).at' node) := by
    intro source target s h node
    simp only [Propagation.visit, Function.update_apply]
    split
    case isTrue heq =>
      subst heq
      exact hmerge node _ _ (h node)
    case isFalse => exact h node
  have hvisits : ∀ (source : ι) (targets : List ι) (s : State ι σ), (∀ node, K node (s.at' node)) →
      ∀ node, K node ((targets.foldl (Propagation.visit merge source) s).at' node) := by
    intro source targets
    induction targets with
    | nil => exact fun _ h => h
    | cons target rest ih => exact fun s h => ih _ (hvisit source target s h)
  induction fuel generalizing s with
  | zero => exact h node
  | succ fuel ih =>
    refine ih fun node => ?_
    unfold Propagation.turn
    split
    · exact h node
    case h_2 source rest _ => exact hvisits source _ ⟨s.at', rest⟩ h node

/-! ### Results -/

/-- The graph stays in `nodes`, every node is queued once at the start and has received nothing. -/
structure Start (R : Rules σ α β) (edges : ι → List ι) (init : ι → σ) (nodes : Finset ι) (pending : List ι) : Prop where
  targets : ∀ source target, target ∈ edges source → source ∈ nodes ∧ target ∈ nodes
  received : ∀ node bound, R.received (init node) ≤ bound
  queued : ∀ node, node ∈ pending ↔ node ∈ nodes
  nodup : pending.Nodup

variable {pending : List ι}

/-- The turns that are enough for a graph of this size. -/
def enough (nodes : Finset ι) : Nat := nodes.card + nodes.card * nodes.card

omit [DecidableEq ι] in
theorem Start.left_le (h : Start R edges init nodes pending) : left' R init nodes ⟨init, pending⟩ ≤ enough nodes := by
  classical
  have hlength : pending.length = nodes.card := by
    rw [← List.toFinset_card_of_nodup h.nodup]
    congr 1
    ext node
    rw [List.mem_toFinset]
    exact h.queued node
  have hsum : ∑ node ∈ nodes, (missing R init nodes ⟨init, pending⟩ node).card ≤ nodes.card * nodes.card := by
    calc ∑ node ∈ nodes, (missing R init nodes ⟨init, pending⟩ node).card
        ≤ ∑ _node ∈ nodes, nodes.card :=
          Finset.sum_le_sum fun node _ => Finset.card_le_card fun w hw => (mem_missing.mp hw).1
      _ = nodes.card * nodes.card := Finset.sum_const_nat fun _ _ => rfl
  show pending.length + _ ≤ _
  rw [hlength]
  exact Nat.add_le_add_left hsum _

variable {fuel : Nat}

theorem Start.run (h : Start R edges init nodes pending) (hfuel : enough nodes ≤ fuel) :
    (Propagation.run R.merge edges fuel ⟨init, pending⟩).pending = [] ∧
      Inv R edges init nodes (fun _ _ => False) (Propagation.run R.merge edges fuel ⟨init, pending⟩) :=
  Inv.run (fun source _ target hedge => (h.targets source target hedge).2)
    (.start h.received h.queued fun source target hedge => (h.targets source target hedge).1)
    (h.left_le.trans hfuel)

/-- The queue is empty after a number of turns that only depends on the number of nodes. -/
theorem run_terminates (h : Start R edges init nodes pending) (hfuel : enough nodes ≤ fuel) :
    (Propagation.run R.merge edges fuel ⟨init, pending⟩).pending = [] := (h.run hfuel).1

/-- At the end a node has the join of the first values of the nodes that reach it. -/
theorem final_value (h : Start R edges init nodes pending) (hfuel : enough nodes ≤ fuel) {node : ι}
    (hnode : node ∈ nodes) :
    IsLUB ((fun w => R.value (init w)) '' {w | Reaches edges w node})
      (R.value ((Propagation.run R.merge edges fuel ⟨init, pending⟩).at' node)) := by
  obtain ⟨hempty, hinv⟩ := h.run hfuel
  refine ⟨?_, fun bound hbound => ?_⟩
  · rintro _ ⟨w, hw, rfl⟩
    -- Along the way every node has the first value of `w`.
    have hway : ∀ v, Reaches edges w v →
        R.value (init w) ≤ R.value ((Propagation.run R.merge edges fuel ⟨init, pending⟩).at' v) := by
      intro v hv
      induction hv with
      | refl => exact hinv.grows w
      | @tail u v _ hedge ih =>
        exact ih.trans (hinv.stable u v hedge (hempty ▸ List.not_mem_nil) not_false).1
    exact hway node hw
  · obtain ⟨from', hfrom, hlub⟩ := hinv.join node hnode
    exact hlub.2 fun _ ⟨w, hw, heq⟩ => hbound ⟨w, (hfrom w hw).2, heq⟩

/-- At the end a node has received the join of what its sources have. -/
theorem final_received (h : Start R edges init nodes pending) (hfuel : enough nodes ≤ fuel) (node : ι) :
    IsLUB ((fun source => R.part (R.value ((Propagation.run R.merge edges fuel ⟨init, pending⟩).at' source))) ''
        {source | node ∈ edges source})
      (R.received ((Propagation.run R.merge edges fuel ⟨init, pending⟩).at' node)) := by
  obtain ⟨hempty, hinv⟩ := h.run hfuel
  refine ⟨?_, fun bound hbound => hinv.received node bound fun source hedge => hbound ⟨source, hedge, rfl⟩⟩
  rintro _ ⟨source, hedge, rfl⟩
  exact (hinv.stable source node hedge (hempty ▸ List.not_mem_nil) not_false).2

end Propagation
