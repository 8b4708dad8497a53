import FunctionAlgebra.Fn.Walk
import FunctionAlgebra.Proofs.Induction
import Mathlib

/-!
# A walk visits every position once

Equal parts of a function may stand at several positions. What tells positions apart is the path of
keys that leads to each of them. A walk goes through the positions in preorder: each one is
followed by all positions below it, child by child.

## Main definitions

* `Fn.Leads` — a path of keys leads through some nodes to a part of a function.
* `Fn.paths` — all paths of keys in a function, each before its extensions.

## Main statements

* `Fn.walkBelow_eq` — a walk goes through one child after the other.
* `Fn.exists_paths` — the paths through a node are those of the node itself, and follow one another.
* `Fn.mem_paths_iff` — the paths of a function are those that lead somewhere.
* `Fn.walk_enumerates_paths` — a walk visits the ends of all paths, in their order.
-/

namespace FunctionAlgebra.Fn

variable {α : Type} {f g h : Fn α} {path : List String} {above : List (Fn α)} {key : String}

/-! ## Children -/

theorem mem_of_mem_numbered {word : String} {fs : List (Fn α)} {c : String × Fn α}
    (hc : c ∈ numbered word fs) : c.2 ∈ fs := by
  obtain ⟨i, hi, rfl⟩ := List.mem_mapIdx.1 hc
  exact List.getElem_mem hi

theorem sizeOf_lt_of_mem_children {c : String × Fn α} (hc : c ∈ f.children) :
    sizeOf c.2 < sizeOf f := by
  induction f with
  | zero | one | const v | undefined | plain k s => cases hc
  | chain k s f _ =>
    obtain rfl := List.mem_singleton.1 hc
    simp only [unary.sizeOf_spec, Option.some.sizeOf_spec]
    omega
  | sum fs _ | product fs _ =>
    have := List.sizeOf_lt_of_mem (mem_of_mem_numbered hc)
    simp only [sum.sizeOf_spec, product.sizeOf_spec]
    omega
  | quotient n d _ _ =>
    obtain rfl | rfl : c = ("numerator", n) ∨ c = ("denominator", d) := by simpa [children] using hc
    all_goals
      simp only [quotient.sizeOf_spec]
      omega
  | piecewise segments _ =>
    obtain ⟨s, hs, hpayload⟩ := List.mem_map.1 (mem_of_mem_numbered hc)
    have := List.sizeOf_lt_of_mem hs
    rw [← hpayload, piecewise.sizeOf_spec]
    cases s
    simp only [Segment.mk.sizeOf_spec] at this ⊢
    omega

theorem nodup_keys_numbered (word : String) (fs : List (Fn α)) :
    ((numbered word fs).map (·.1)).Nodup := by
  rw [List.nodup_iff_injective_getElem]
  intro i j hij
  simp only [numbered, List.getElem_map, List.getElem_mapIdx, String.append_right_inj] at hij
  exact Fin.ext (Nat.repr_injective hij)

/-- The children of a function have different keys. -/
theorem nodup_keys (f : Fn α) : (f.children.map (·.1)).Nodup := by
  induction f with
  | zero | one | const v | undefined | plain k s => exact List.nodup_nil
  | chain k s f => exact List.nodup_singleton _
  | sum ts => exact nodup_keys_numbered "term" ts
  | product fs => exact nodup_keys_numbered "factor" fs
  | quotient n d => simp [children]
  | piecewise segments => exact nodup_keys_numbered "segment" _

theorem eq_of_mem_children (hg : (key, g) ∈ f.children) (hh : (key, h) ∈ f.children) : g = h :=
  congrArg Prod.snd (List.inj_on_of_nodup_map (nodup_keys f) hg hh rfl)

/-! ## Walks -/

def visits (above : List (Fn α)) (c : String × Fn α) : List (Visit α) :=
  ⟨above, c.1, c.2⟩ :: walkBelow above c.2

theorem walkAll_eq (above : List (Fn α)) (word : String) (i : Nat) (fs : List (Fn α)) :
    walkAll above word i fs =
      (fs.mapIdx fun j f => (word ++ toString (i + j), f)).flatMap (visits above) := by
  induction fs generalizing i with
  | nil => rfl
  | cons f fs ih =>
    rw [walkAll, ih, List.mapIdx_cons, List.flatMap_cons]
    simp only [Nat.add_assoc, Nat.add_comm 1, Nat.add_zero, visits]

theorem walkSegments_eq (above : List (Fn α)) (i : Nat) (segments : List (Segment α (Fn α))) :
    walkSegments above i segments = walkAll above "segment" i (segments.map (·.payload)) := by
  induction segments generalizing i with
  | nil => rfl
  | cons s rest ih => rw [walkSegments, ih, List.map_cons, walkAll]

/-- A walk goes through the children of a function one after the other. -/
theorem walkBelow_eq (above : List (Fn α)) (f : Fn α) :
    walkBelow above f = f.children.flatMap (visits (above ++ [f])) := by
  induction f with
  | zero | one | const v | undefined | plain k s => rfl
  | chain k s f | quotient n d => simp [walkBelow, children, visits]
  | sum ts | product fs => simp [walkBelow, walkAll_eq, children, numbered]
  | piecewise segments => simp [walkBelow, walkSegments_eq, walkAll_eq, children, numbered]

/-! ## Paths -/

/-- A path of keys leads from `f` to a part of it. The nodes above this part are those on the way,
from `f` itself to the one that has the part for a child. -/
inductive Leads (f : Fn α) : List String → List (Fn α) → Fn α → Prop
  | root : Leads f [] [] f
  | step {path : List String} {above : List (Fn α)} {g h : Fn α} {key : String} :
    Leads f path above g → (key, h) ∈ g.children → Leads f (path ++ [key]) (above ++ [g]) h

def paths (f : Fn α) : List (List String) :=
  [] :: f.children.attach.flatMap fun c => (paths c.1.2).map (c.1.1 :: ·)
termination_by sizeOf f
decreasing_by exact sizeOf_lt_of_mem_children c.2

theorem paths_eq (f : Fn α) :
    f.paths = [] :: f.children.flatMap fun c => c.2.paths.map (c.1 :: ·) := by
  rw [paths, List.flatMap_subtype (g := fun c => c.2.paths.map (c.1 :: ·)) fun _ _ => rfl,
    List.unattach_attach]

theorem map_append_paths (f : Fn α) (path : List String) : f.paths.map (path ++ ·) =
    path :: f.children.flatMap fun c => c.2.paths.map (path ++ [c.1] ++ ·) := by
  rw [paths_eq]
  simp [List.map_flatMap, Function.comp_def]

/-- Different children have different keys, so no path is listed twice. -/
theorem nodup_paths (f : Fn α) : f.paths.Nodup := by
  rw [paths_eq, List.nodup_cons, List.nodup_flatMap]
  refine ⟨by simp, fun c hc => ?_, ?_⟩
  · have := sizeOf_lt_of_mem_children hc
    exact (nodup_paths c.2).map List.cons_injective
  · refine (List.pairwise_map.1 (nodup_keys f)).imp fun {c d} hne => ?_
    simp only [Function.onFun, List.disjoint_left, List.mem_map]
    rintro _ ⟨p, -, rfl⟩ ⟨q, -, heq⟩
    exact hne (List.cons.inj heq).1.symm
termination_by sizeOf f

theorem exists_paths_child (hg : (key, g) ∈ f.children) :
    ∃ before after, f.paths = before ++ g.paths.map (key :: ·) ++ after ∧
      ∀ path ∈ before ++ after, ¬ [key] <+: path := by
  obtain ⟨front, back, hchildren⟩ := List.append_of_mem hg
  have hnodup := nodup_keys f
  rw [hchildren, List.map_append, List.map_cons, List.nodup_middle, List.nodup_cons,
    ← List.map_append] at hnodup
  let pathsOf := fun c : String × Fn α => c.2.paths.map (c.1 :: ·)
  refine ⟨[] :: front.flatMap pathsOf, back.flatMap pathsOf, ?_, ?_⟩
  · rw [paths_eq, hchildren]
    simp [pathsOf]
  · rw [List.cons_append, ← List.flatMap_append, List.forall_mem_cons]
    refine ⟨by simp, fun path hpath hprefix => hnodup.1 ?_⟩
    obtain ⟨c, hc, hpath⟩ := List.mem_flatMap.1 hpath
    obtain ⟨q, -, rfl⟩ := List.mem_map.1 hpath
    rw [(List.cons_prefix_cons.1 hprefix).1]
    exact List.mem_map.2 ⟨c, hc, rfl⟩

/-- The paths through a node follow one another: they are the paths of the node itself, with the
path to it in front. -/
theorem exists_paths (h : f.Leads path above g) :
    ∃ before after, f.paths = before ++ g.paths.map (path ++ ·) ++ after ∧
      ∀ q ∈ before ++ after, ¬ path <+: q := by
  induction h with
  | root => exact ⟨[], [], by simp, by simp⟩
  | @step path above g h key _ hkey ih =>
    obtain ⟨before, after, hpaths, hothers⟩ := ih
    obtain ⟨before', after', hpaths', hothers'⟩ := exists_paths_child hkey
    refine ⟨before ++ before'.map (path ++ ·), after'.map (path ++ ·) ++ after, ?_, ?_⟩
    · rw [hpaths, hpaths']
      simp
    · intro q hq hprefix
      simp only [List.mem_append, List.mem_map] at hq
      obtain (hq | ⟨q, hq, rfl⟩) | (⟨q, hq, rfl⟩ | hq) := hq
      · exact hothers q (List.mem_append_left _ hq) ((List.prefix_append _ _).trans hprefix)
      · exact hothers' q (List.mem_append_left _ hq) ((List.prefix_append_right_inj _).1 hprefix)
      · exact hothers' q (List.mem_append_right _ hq) ((List.prefix_append_right_inj _).1 hprefix)
      · exact hothers q (List.mem_append_right _ hq) ((List.prefix_append _ _).trans hprefix)

theorem leads_nil_iff : f.Leads [] above g ↔ above = [] ∧ g = f := by
  constructor
  · intro hlead
    generalize hq : [] = q at hlead
    cases hlead with
    | root => exact ⟨rfl, rfl⟩
    | step => simp at hq
  · rintro ⟨rfl, rfl⟩
    exact .root

theorem leads_concat_iff : f.Leads (path ++ [key]) above h ↔
    ∃ above' g, above = above' ++ [g] ∧ f.Leads path above' g ∧ (key, h) ∈ g.children := by
  constructor
  · intro hlead
    generalize hq : path ++ [key] = q at hlead
    cases hlead with
    | root => simp at hq
    | step hlead hkey =>
      obtain ⟨rfl, rfl⟩ := List.append_singleton_inj.1 hq
      exact ⟨_, _, rfl, hlead, hkey⟩
  · rintro ⟨above, g, rfl, hlead, hkey⟩
    exact hlead.step hkey

/-- A path leads to one node only, through the same nodes. -/
theorem Leads.unique {above' : List (Fn α)} {g' : Fn α} (h : f.Leads path above g)
    (h' : f.Leads path above' g') : above' = above ∧ g' = g := by
  induction h generalizing above' g' with
  | root => exact leads_nil_iff.1 h'
  | step _ hkey ih =>
    obtain ⟨above', g', rfl, hlead, hkey'⟩ := leads_concat_iff.1 h'
    obtain ⟨rfl, rfl⟩ := ih hlead
    exact ⟨rfl, eq_of_mem_children hkey' hkey⟩

/-! ## Visits and paths -/

/-- A walk below a node visits the ends of the paths through this node, in their order. -/
theorem forall₂_visits (g : Fn α) {path : List String} {above : List (Fn α)} {key : String}
    (h : f.Leads path above g) (hkey : key = path.getLastD "") :
    List.Forall₂ (fun q v => f.Leads q v.ancestors v.node ∧ v.key = q.getLastD "")
      (g.paths.map (path ++ ·)) (visits above (key, g)) := by
  rw [map_append_paths, visits, walkBelow_eq]
  have hchildren : List.Forall₂ (fun c d => c = d ∧ c ∈ g.children) g.children g.children :=
    List.forall₂_same.2 fun c hc => ⟨rfl, hc⟩
  refine .cons ⟨h, hkey⟩ (List.rel_flatMap hchildren ?_)
  rintro c _ ⟨rfl, hc⟩
  have := sizeOf_lt_of_mem_children hc
  exact forall₂_visits c.2 (h.step hc) (by simp)
termination_by sizeOf g

theorem forall₂_walk (f : Fn α) :
    List.Forall₂ (fun q v => f.Leads q v.ancestors v.node ∧ v.key = q.getLastD "")
      f.paths (f.walk true) := by
  simpa [visits, walk] using forall₂_visits f (.root (f := f)) rfl

theorem mem_paths_iff : path ∈ f.paths ↔ ∃ above g, f.Leads path above g := by
  constructor
  · intro hpath
    obtain ⟨i, hi, rfl⟩ := List.getElem_of_mem hpath
    have hwalk := forall₂_walk f
    exact ⟨_, _, (hwalk.get hi (hwalk.length_eq ▸ hi)).1⟩
  · rintro ⟨above, g, h⟩
    obtain ⟨before, after, hpaths, -⟩ := exists_paths h
    rw [hpaths, map_append_paths]
    simp

/-- The visits of a walk are the ends of the paths of keys, one for each path: what is above a
visited node are the nodes on the path to it. A node is followed by all that lies below it, child
by child, and only then by its next sibling. -/
theorem walk_enumerates_paths (f : Fn α) :
    f.paths.Nodup ∧
    (∀ path, path ∈ f.paths ↔ ∃ above g, f.Leads path above g) ∧
    (∀ path above g above' g', f.Leads path above g → f.Leads path above' g' →
      above' = above ∧ g' = g) ∧
    List.Forall₂ (fun path v => f.Leads path v.ancestors v.node ∧ v.key = path.getLastD "")
      f.paths (f.walk true) ∧
    (∀ path above g, f.Leads path above g → ∃ before after,
      f.paths = before ++
        path :: (g.children.flatMap fun c => c.2.paths.map (path ++ [c.1] ++ ·)) ++ after ∧
      ∀ q ∈ before ++ after, ¬ path <+: q) ∧
    f.walk false = (f.walk true).tail := by
  refine ⟨nodup_paths f, fun path => mem_paths_iff, fun path above g above' g' h h' => h.unique h',
    forall₂_walk f, fun path above g h => ?_, rfl⟩
  rw [← map_append_paths]
  exact exists_paths h

/-- Equal parts are visited at each of their positions. -/
example : ((sum [product [one, one], one] : Fn α).walk true).map
    (fun v => (v.ancestors.length, v.key)) =
      [(0, ""), (1, "term0"), (2, "factor0"), (2, "factor1"), (1, "term1")] := by
  rfl

end FunctionAlgebra.Fn
