/- Module: Mewa/TypeDb/Frontier
   digest: The stack and the priority queue hold paths, and a search goes through all of them. -/

import Mewa.Lib.Paths
import Mewa.TypeDb.Reachable

set_option autoImplicit false
set_option relaxedAutoImplicit false

namespace Mewa

open Mewa.Lib Mewa.Lib.Paths Mewa.Lib.BestFirst

/-- The stack holds one path for each of its elements, as its last edge and a link to the rest.
    `root` is what it keeps of a start and `len` the length it counts. -/
structure StackPaths (root : Int → Int) (len : Path Int Int → Int) (ar : ReduStack)
    (paths : List (Rooted Int Int)) : Prop where
  length : ar.length = paths.length
  start : ∀ (i : Nat) (ee : ReduStackElem) (a : Int), ar[i]? = some ee →
    paths[i]? = some (a, []) →
    ee.prev = none ∧ ee.type = a ∧ ee.constructor = root a ∧ ee.pathlen = len []
  follow : ∀ (i : Nat) (ee : ReduStackElem) (a : Int) (p : Path Int Int) (e : Edge Int Int),
    ar[i]? = some ee → paths[i]? = some (a, p ++ [e]) →
    (∃ j < i, ee.prev = some j ∧ paths[j]? = some (a, p)) ∧ ee.type = e.target ∧
      ee.constructor = e.label ∧ ee.pathlen = len (p ++ [e])

namespace StackPaths

variable {root : Int → Int} {len : Path Int Int → Int} {ar : ReduStack}
variable {paths : List (Rooted Int Int)} {a : Int} {p : Path Int Int}

theorem exists_elem (stack : StackPaths root len ar paths) {i : Nat}
    (found : paths[i]? = some (a, p)) :
    ∃ ee : ReduStackElem, ar[i]? = some ee ∧ ee.type = endOf a p ∧ ee.pathlen = len p := by
  have hi : i < ar.length := stack.length ▸ (List.getElem?_eq_some_iff.mp found).1
  have node : ar[i]? = some ar[i] := List.getElem?_eq_getElem hi
  refine ⟨ar[i], node, ?_⟩
  rcases List.eq_nil_or_concat' p with rfl | ⟨p, e, rfl⟩
  · obtain ⟨-, htype, -, hlen⟩ := stack.start i _ a node found
    exact ⟨htype, hlen⟩
  · obtain ⟨-, htype, -, hlen⟩ := stack.follow i _ a p e node found
    exact ⟨by rw [htype, endOf_append]; rfl, hlen⟩

theorem occurs_eq (stack : StackPaths root len ar paths) (type : Int) :
    ∀ (fuel i : Nat) (p : Path Int Int), i < fuel → paths[i]? = some (a, p) →
      ReduStack.occurs ar type fuel (some i) = .ok (decide (type ∈ nodes a p)) := by
  intro fuel
  induction fuel with
  | zero => intro i p hi; omega
  | succ fuel ih =>
    intro i p hi found
    have hlen : i < ar.length := stack.length ▸ (List.getElem?_eq_some_iff.mp found).1
    have node : ar[i]? = some ar[i] := List.getElem?_eq_getElem hlen
    rcases List.eq_nil_or_concat' p with rfl | ⟨p, e, rfl⟩
    · obtain ⟨hprev, htype, -⟩ := stack.start i _ a node found
      have none_left : ReduStack.occurs ar type fuel none = .ok false := by cases fuel <;> rfl
      simp only [ReduStack.occurs, node, htype, hprev, none_left]
      split_ifs with h
      · simp [nodes, h]
      · simp [nodes, Ne.symm h]
    · obtain ⟨⟨j, hj, hprev, before⟩, htype, -, -⟩ := stack.follow i _ a p e node found
      simp only [ReduStack.occurs, node, htype, hprev, ih j p (by omega) before, nodes_append]
      split_ifs with h
      · simp [h]
      · simp [Ne.symm h]

theorem collect_eq (stack : StackPaths root len ar paths) :
    ∀ (fuel i : Nat) (p : Path Int Int), i < fuel → paths[i]? = some (a, p) →
      ∃ l, ReduStack.collect ar fuel (some i) = .ok l ∧
        l.reverse.map (fun ee => (ee.type, ee.constructor)) =
          p.map fun e => (e.target, e.label) := by
  intro fuel
  induction fuel with
  | zero => intro i p hi; omega
  | succ fuel ih =>
    intro i p hi found
    have hlen : i < ar.length := stack.length ▸ (List.getElem?_eq_some_iff.mp found).1
    have node : ar[i]? = some ar[i] := List.getElem?_eq_getElem hlen
    rcases List.eq_nil_or_concat' p with rfl | ⟨p, e, rfl⟩
    · obtain ⟨hprev, -, -⟩ := stack.start i _ a node found
      have none_left : ReduStack.collect ar fuel none = .ok [] := by cases fuel <;> rfl
      exact ⟨[], by simp [ReduStack.collect, node, hprev, none_left], rfl⟩
    · obtain ⟨⟨j, hj, hprev, before⟩, htype, hlabel, -⟩ := stack.follow i _ a p e node found
      obtain ⟨l, call, hl⟩ := ih j p (by omega) before
      refine ⟨ar[i] :: l, by simp [ReduStack.collect, node, hprev, call], ?_⟩
      simp [hl, htype, hlabel]

theorem collectResult_eq (stack : StackPaths root len ar paths) {i : Nat}
    (found : paths[i]? = some (a, p)) :
    ar.collectResult i = .ok (p.map fun e => ⟨e.target, e.label⟩) := by
  have hlen : i < ar.length := stack.length ▸ (List.getElem?_eq_some_iff.mp found).1
  obtain ⟨l, call, hl⟩ := stack.collect_eq ar.length i p hlen found
  have := congrArg (List.map fun x : Int × Int => TypeConstructorPair.mk x.1 x.2) hl
  simp only [List.map_map, Function.comp_def] at this
  simpa [ReduStack.collectResult, call] using this

theorem collectConflictPath_eq (stack : StackPaths root len ar paths) {i : Nat}
    (found : paths[i]? = some (a, p)) :
    ar.collectConflictPath i = .ok (p.map Edge.target) := by
  have hlen : i < ar.length := stack.length ▸ (List.getElem?_eq_some_iff.mp found).1
  obtain ⟨l, call, hl⟩ := stack.collect_eq ar.length i p hlen found
  have := congrArg (List.map Prod.fst) hl
  simp only [List.map_map, Function.comp_def] at this
  simpa [ReduStack.collectConflictPath, call] using this

theorem pushIfNew_eq (stack : StackPaths root len ar paths) {j : Nat}
    (found : paths[j]? = some (a, p)) (e : Edge Int Int) (pathlen : Int) :
    ar.pushIfNew e.target e.label j pathlen =
      .ok (if e.target ∈ nodes a p then (ar, none)
        else (ar ++ [⟨e.target, e.label, some j, pathlen⟩], some ar.length)) := by
  have inside : j < ar.length := stack.length ▸ (List.getElem?_eq_some_iff.mp found).1
  have known := stack.occurs_eq e.target ar.length j p inside found
  by_cases on_path : e.target ∈ nodes a p
  · simp [ReduStack.pushIfNew, known, on_path]
  · simp [ReduStack.pushIfNew, known, on_path]

theorem push (stack : StackPaths root len ar paths) {j : Nat}
    (found : paths[j]? = some (a, p)) (e : Edge Int Int) :
    StackPaths root len (ar ++ [⟨e.target, e.label, some j, len (p ++ [e])⟩])
      (paths ++ [(a, p ++ [e])]) where
  length := by simp [stack.length]
  start i ee b node start := by
    rcases Nat.lt_or_ge i ar.length with hi | hi
    · rw [List.getElem?_append_left hi] at node
      rw [List.getElem?_append_left (stack.length ▸ hi)] at start
      exact stack.start i ee b node start
    · rw [List.getElem?_append_right (stack.length ▸ hi), List.getElem?_singleton] at start
      split_ifs at start
      simp at start
  follow i ee b q f node follow := by
    have hj := (List.getElem?_eq_some_iff.mp found).1
    have old {k : Nat} {r : Rooted Int Int} (h : paths[k]? = some r) :
        (paths ++ [(a, p ++ [e])])[k]? = some r := by
      rw [List.getElem?_append_left (List.getElem?_eq_some_iff.mp h).1, h]
    rcases Nat.lt_or_ge i ar.length with hi | hi
    · rw [List.getElem?_append_left hi] at node
      rw [List.getElem?_append_left (stack.length ▸ hi)] at follow
      obtain ⟨⟨k, hk, hprev, before⟩, rest⟩ := stack.follow i ee b q f node follow
      exact ⟨⟨k, hk, hprev, old before⟩, rest⟩
    · rw [List.getElem?_append_right hi, List.getElem?_singleton] at node
      rw [List.getElem?_append_right (stack.length ▸ hi), List.getElem?_singleton] at follow
      split_ifs at node
      split_ifs at follow
      obtain rfl := Option.some.inj node
      obtain ⟨rfl, path⟩ := Prod.mk.inj (Option.some.inj follow)
      obtain ⟨rfl, hef⟩ := List.append_inj' path rfl
      obtain rfl := List.singleton_inj.mp hef
      have := stack.length
      exact ⟨⟨j, by omega, rfl, old found⟩, rfl, rfl, rfl⟩

theorem pushStart (stack : StackPaths root len ar paths) (a : Int) :
    StackPaths root len (ar ++ [⟨a, root a, none, len []⟩]) (paths ++ [(a, [])]) where
  length := by simp [stack.length]
  start i ee b node start := by
    rcases Nat.lt_or_ge i ar.length with hi | hi
    · rw [List.getElem?_append_left hi] at node
      rw [List.getElem?_append_left (stack.length ▸ hi)] at start
      exact stack.start i ee b node start
    · rw [List.getElem?_append_right hi, List.getElem?_singleton] at node
      rw [List.getElem?_append_right (stack.length ▸ hi), List.getElem?_singleton] at start
      split_ifs at node
      split_ifs at start
      obtain rfl := Option.some.inj node
      obtain ⟨rfl, -⟩ := Prod.mk.inj (Option.some.inj start)
      exact ⟨rfl, rfl, rfl, rfl⟩
  follow i ee b q f node follow := by
    rcases Nat.lt_or_ge i ar.length with hi | hi
    · rw [List.getElem?_append_left hi] at node
      rw [List.getElem?_append_left (stack.length ▸ hi)] at follow
      obtain ⟨⟨k, hk, hprev, before⟩, rest⟩ := stack.follow i ee b q f node follow
      refine ⟨⟨k, hk, hprev, ?_⟩, rest⟩
      rw [List.getElem?_append_left (List.getElem?_eq_some_iff.mp before).1, before]
    · rw [List.getElem?_append_right (stack.length ▸ hi), List.getElem?_singleton] at follow
      split_ifs at follow
      simp at follow

end StackPaths

namespace ReduQueueElem

theorem push_perm (qe : ReduQueueElem) (queue : List ReduQueueElem) :
    (push qe queue).Perm (qe :: queue) := by
  induction queue with
  | nil => exact List.Perm.refl _
  | cons b queue ih =>
    simp only [push]
    split_ifs
    · exact List.Perm.refl _
    · exact (ih.cons b).trans (List.Perm.swap qe b queue)

theorem push_sorted (qe : ReduQueueElem) {queue : List ReduQueueElem}
    (sorted : queue.Pairwise fun a b => a.weight ≤ b.weight) :
    (push qe queue).Pairwise fun a b => a.weight ≤ b.weight := by
  induction queue with
  | nil => simp [push]
  | cons b queue ih =>
    obtain ⟨above, tail⟩ := List.pairwise_cons.mp sorted
    simp only [push]
    split_ifs with hless
    · have hle : qe.weight ≤ b.weight := by
        simp only [less] at hless
        split_ifs at hless with heq
        · exact heq.le
        · exact (by simpa using hless : qe.weight < b.weight).le
      refine List.pairwise_cons.mpr ⟨fun c hc => ?_, sorted⟩
      rcases List.mem_cons.mp hc with rfl | hc
      · exact hle
      · exact hle.trans (above c hc)
    · have hle : b.weight ≤ qe.weight := by
        simp only [less] at hless
        split_ifs at hless with heq
        · exact heq.ge
        · exact not_lt.mp (by simpa using hless)
      refine List.pairwise_cons.mpr ⟨fun c hc => ?_, ih tail⟩
      rcases List.mem_cons.mp ((push_perm qe queue).mem_iff.mp hc) with rfl | hc
      · exact hle
      · exact above c hc

end ReduQueueElem

/-- Every element of the queue stands for a path with its weight. -/
def QueuePaths (paths : List (Rooted Int Int)) (queue : List ReduQueueElem) : Prop :=
  ∀ qe ∈ queue, ∃ r, paths[qe.index]? = some r ∧ qe.weight = weightOf r.2

def frontierOf (paths : List (Rooted Int Int)) (queue : List ReduQueueElem) :
    List (Rooted Int Int) :=
  queue.map fun qe => (paths[qe.index]?).getD (0, [])

theorem frontierOf_append {paths : List (Rooted Int Int)} {queue : List ReduQueueElem}
    (held : QueuePaths paths queue) (more : List (Rooted Int Int)) :
    QueuePaths (paths ++ more) queue ∧
      frontierOf (paths ++ more) queue = frontierOf paths queue := by
  have old {k : Nat} {r : Rooted Int Int} (h : paths[k]? = some r) :
      (paths ++ more)[k]? = some r := by
    rw [List.getElem?_append_left (List.getElem?_eq_some_iff.mp h).1, h]
  constructor
  · intro qe hqe
    obtain ⟨q, hq, hw⟩ := held qe hqe
    exact ⟨q, old hq, hw⟩
  · refine List.map_congr_left fun qe hqe => ?_
    obtain ⟨q, hq, -⟩ := held qe hqe
    rw [old hq, hq]

/-- The stack and the queue hold paths, the queue with the lightest ones first. -/
structure Holds (root : Int → Int) (len : Path Int Int → Int) (paths : List (Rooted Int Int))
    (stack : ReduStack) (queue : List ReduQueueElem) : Prop where
  stacked : StackPaths root len stack paths
  queued : QueuePaths paths queue
  sorted : queue.Pairwise fun a b => a.weight ≤ b.weight

/-- The extension of a path with an edge that is allowed for it. -/
def extension (limit : Nat) (r : Rooted Int Int) (e : Edge Int Int) : List (Rooted Int Int) :=
  if countOf (r.2 ++ [e]) ≤ limit ∧ e.target ∉ nodes r.1 r.2 then [(r.1, r.2 ++ [e])] else []

theorem extensions_eq (edges : Int → List (Edge Int Int)) (limit : Nat) (r : Rooted Int Int) :
    (edges r.last).flatMap (extension limit r) = children edges limit r := by
  simp only [children, extensions]
  induction edges r.last with
  | nil => rfl
  | cons e l ih =>
    rw [List.flatMap_cons, ih, extension]
    split_ifs with h
    · rw [List.filter_cons_of_pos (by simpa using h)]
      rfl
    · rw [List.filter_cons_of_neg (by simpa using h)]
      rfl

namespace Holds

variable {root : Int → Int} {len : Path Int Int → Int} {paths : List (Rooted Int Int)}
variable {stack : ReduStack} {queue : List ReduQueueElem} {qe : ReduQueueElem}

private theorem pushed (holds : Holds root len paths stack queue) {r : Rooted Int Int}
    {elem : ReduStackElem}
    (stacked : StackPaths root len (stack ++ [elem]) (paths ++ [r])) {weight : ℚ}
    (heavier : weight = weightOf r.2) :
    Holds root len (paths ++ [r]) (stack ++ [elem])
        (ReduQueueElem.push ⟨weight, stack.length⟩ queue) ∧
      (frontierOf (paths ++ [r]) (ReduQueueElem.push ⟨weight, stack.length⟩ queue)).Perm
        (r :: frontierOf paths queue) := by
  have new : (paths ++ [r])[stack.length]? = some r := by
    rw [holds.stacked.length]
    simp
  have perm := ReduQueueElem.push_perm ⟨weight, stack.length⟩ queue
  obtain ⟨queued, same⟩ := frontierOf_append holds.queued [r]
  refine ⟨⟨stacked, fun b hb => ?_, ReduQueueElem.push_sorted _ holds.sorted⟩, ?_⟩
  · rcases List.mem_cons.mp (perm.mem_iff.mp hb) with rfl | hb
    · exact ⟨r, new, heavier⟩
    · exact queued b hb
  · refine (perm.map _).trans ?_
    rw [List.map_cons, new, ← same]
    exact List.Perm.refl _

theorem follow (holds : Holds root len paths stack queue) {a : Int} {p : Path Int Int}
    (found : paths[qe.index]? = some (a, p)) (weight : qe.weight = weightOf p)
    (e : Edge Int Int) :
    let elem : ReduStackElem := ⟨e.target, e.label, some qe.index, len (p ++ [e])⟩
    let queue' := ReduQueueElem.push ⟨qe.weight + e.weight, stack.length⟩ queue
    Holds root len (paths ++ [(a, p ++ [e])]) (stack ++ [elem]) queue' ∧
      (paths ++ [(a, p ++ [e])])[qe.index]? = some (a, p) ∧
      (frontierOf (paths ++ [(a, p ++ [e])]) queue').Perm
        ((a, p ++ [e]) :: frontierOf paths queue) := by
  have heavier : qe.weight + e.weight = weightOf (p ++ [e]) := by
    rw [weight, weightOf_append]
    simp [weightOf]
  obtain ⟨holds', perm⟩ := holds.pushed (holds.stacked.push found e) heavier
  refine ⟨holds', ?_, perm⟩
  rw [List.getElem?_append_left (List.getElem?_eq_some_iff.mp found).1, found]

theorem pushStart (holds : Holds root len paths stack queue) (a : Int) :
    let queue' := ReduQueueElem.push ⟨0, stack.length⟩ queue
    Holds root len (paths ++ [(a, [])]) (stack ++ [⟨a, root a, none, len []⟩]) queue' ∧
      (frontierOf (paths ++ [(a, [])]) queue').Perm ((a, []) :: frontierOf paths queue) :=
  holds.pushed (holds.stacked.pushStart a) (by simp [weightOf])

theorem fold {f : ReduStack × List ReduQueueElem → ResultElement Int Int →
      Except Failure (ReduStack × List ReduQueueElem)}
    {edge : ResultElement Int Int → Edge Int Int} {limit : Nat} {r : Rooted Int Int}
    (step : ∀ {paths stack queue}, Holds root len paths stack queue →
      paths[qe.index]? = some r → ∀ redu, ∃ paths' stack' queue',
        f (stack, queue) redu = .ok (stack', queue') ∧ Holds root len paths' stack' queue' ∧
        paths'[qe.index]? = some r ∧
        (frontierOf paths' queue').Perm (extension limit r (edge redu) ++ frontierOf paths queue))
    (holds : Holds root len paths stack queue) (found : paths[qe.index]? = some r)
    (redulist : List (ResultElement Int Int)) :
    ∃ paths' stack' queue', redulist.foldlM f (stack, queue) = .ok (stack', queue') ∧
      Holds root len paths' stack' queue' ∧
      (frontierOf paths' queue').Perm
        ((redulist.map edge).flatMap (extension limit r) ++ frontierOf paths queue) := by
  induction redulist generalizing paths stack queue with
  | nil => exact ⟨paths, stack, queue, rfl, holds, List.Perm.refl _⟩
  | cons redu redulist ih =>
    obtain ⟨paths', stack', queue', one, holds', found', perm⟩ := step holds found redu
    obtain ⟨paths'', stack'', queue'', rest, holds'', perm'⟩ := ih holds' found'
    refine ⟨paths'', stack'', queue'', by rw [List.foldlM_cons, one, ok_bind, rest], holds'',
      perm'.trans ?_⟩
    rw [List.map_cons, List.flatMap_cons, List.append_assoc]
    refine (List.Perm.append_left _ perm).trans ?_
    rw [← List.append_assoc, ← List.append_assoc]
    exact List.Perm.append_right _ List.perm_append_comm

end Holds

/-- The reductions out of a type lead to distinct types of a list, and none of them is negative. -/
structure ReductionGraph (edges : Int → List (Edge Int Int)) (targets : List Int) : Prop where
  distinct : ∀ a, ((edges a).map Edge.target).Nodup
  nonneg : ∀ a, ∀ e ∈ edges a, 0 ≤ e.weight
  target : ∀ a, ∀ e ∈ edges a, e.target ∈ targets

namespace TypeDatabase

/-- A reduction as an edge, which counts if it has one of the tags to count. -/
def reductionEdge (selectTagsCount : TagMask) (redu : ResultElement Int Int) : Edge Int Int :=
  ⟨redu.right, redu.value, redu.weight, selectTagsCount.matchesTag redu.tagval⟩

def reductionEdges (db : TypeDatabase) (step : Int) (selectTags selectTagsCount : TagMask)
    (type : Int) : List (Edge Int Int) :=
  match db.reduTable.get step type selectTags with
  | .ok redulist => redulist.map (reductionEdge selectTagsCount)
  | .error _ => []

theorem reductionGraph {db : TypeDatabase} (sound : db.reduTable.Sound) (step : Int)
    (selectTags selectTagsCount : TagMask) :
    ReductionGraph (db.reductionEdges step selectTags selectTagsCount)
      (db.reduTable.list.map ListElement.related) := by
  have edges (type : Int) : ∃ rt : List (ResultElement Int Int),
      db.reductionEdges step selectTags selectTagsCount type =
        rt.map (reductionEdge selectTagsCount) ∧ ScopedRelationMap.GoodResult db.reduTable.list rt := by
    obtain ⟨rt, call, good⟩ := sound.get_ok step type selectTags
    exact ⟨rt, by simp only [reductionEdges, call], good⟩
  refine ⟨fun type => ?_, fun type e he => ?_, fun type e he => ?_⟩
  · obtain ⟨rt, eq, good⟩ := edges type
    rw [eq, List.map_map]
    exact good.distinct
  · obtain ⟨rt, eq, good⟩ := edges type
    rw [eq] at he
    obtain ⟨redu, hredu, rfl⟩ := List.mem_map.mp he
    exact good.weight redu hredu
  · obtain ⟨rt, eq, good⟩ := edges type
    rw [eq] at he
    obtain ⟨redu, hredu, rfl⟩ := List.mem_map.mp he
    exact good.related redu hredu

end TypeDatabase

section Search

variable {root : Int → Int} {len : Path Int Int → Int} {edges : Int → List (Edge Int Int)}
variable {targets starts : List Int} {limit : Nat} {goal : Int → Prop} {epsilon : ℚ}

/-- A path that a search may return. -/
structure Answer (edges : Int → List (Edge Int Int)) (limit : Nat) (starts : List Int)
    (goal : Int → Prop) (r : Rooted Int Int) : Prop where
  start : r.1 ∈ starts
  admissible : Paths.Admissible edges limit r
  goal : goal r.last

/-- What a search ends with: nothing, or a lightest answer without a competitor or with one. -/
inductive Outcome (edges : Int → List (Edge Int Int)) (limit : Nat) (starts : List Int)
    (goal : Int → Prop) (epsilon : ℚ) : Option (Rooted Int Int × Option (Rooted Int Int)) → Prop
  | nothing : (∀ q, ¬ Answer edges limit starts goal q) →
      Outcome edges limit starts goal epsilon none
  | alone (r : Rooted Int Int) : Answer edges limit starts goal r →
      (∀ q, Answer edges limit starts goal q → weightOf r.2 ≤ weightOf q.2) →
      (∀ q, Answer edges limit starts goal q → q ≠ r → ¬ weightOf q.2 ≤ weightOf r.2 + epsilon) →
      Outcome edges limit starts goal epsilon (some (r, none))
  | rival (r q : Rooted Int Int) : Answer edges limit starts goal r →
      (∀ q, Answer edges limit starts goal q → weightOf r.2 ≤ weightOf q.2) →
      Answer edges limit starts goal q → q ≠ r → weightOf q.2 ≤ weightOf r.2 + epsilon →
      Outcome edges limit starts goal epsilon (some (r, some q))

/-- What holds before each iteration of a search loop. -/
structure SearchInv (root : Int → Int) (len : Path Int Int → Int)
    (edges : Int → List (Edge Int Int)) (limit : Nat) (starts : List Int)
    (paths visited : List (Rooted Int Int)) (stack : ReduStack) (queue : List ReduQueueElem) :
    Prop where
  holds : Holds root len paths stack queue
  search : Search (children edges limit) (emptyPaths starts) visited (frontierOf paths queue)

/-- Before the first answer is found, or after it. -/
inductive Phase (edges : Int → List (Edge Int Int)) (limit : Nat) (starts : List Int)
    (goal : Int → Prop) (visited : List (Rooted Int Int)) : Option (Rooted Int Int) → Prop
  | searching : (∀ v ∈ visited, ¬ goal v.last) → Phase edges limit starts goal visited none
  | found (r : Rooted Int Int) : Answer edges limit starts goal r → r ∈ visited →
      (∀ v ∈ visited, goal v.last → v = r) →
      (∀ q, Answer edges limit starts goal q → weightOf r.2 ≤ weightOf q.2) →
      Phase edges limit starts goal visited (some r)

/-- What the loop needs at most before it ends. -/
def energy (targets : List Int) (frontier : List (Rooted Int Int)) : Nat :=
  (frontier.map (potential targets.length targets.length fun r => r.2.length)).sum

/-- The top of the queue stands for a path that is not heavier than what is left. -/
structure Top (len : Path Int Int → Int) (edges : Int → List (Edge Int Int)) (limit : Nat)
    (starts : List Int) (paths visited : List (Rooted Int Int)) (stack : ReduStack)
    (qe : ReduQueueElem) (r : Rooted Int Int) (elem : ReduStackElem) : Prop where
  found : paths[qe.index]? = some r
  node : stack[qe.index]? = some elem
  type : elem.type = r.last
  pathlen : elem.pathlen = len r.2
  weight : qe.weight = weightOf r.2
  start : r.1 ∈ starts
  admissible : Paths.Admissible edges limit r
  unvisited : r ∉ visited
  least : ∀ q : Rooted Int Int, q.1 ∈ starts → Paths.Admissible edges limit q → q ∉ visited →
    weightOf r.2 ≤ weightOf q.2

namespace SearchInv

variable {paths visited : List (Rooted Int Int)} {stack : ReduStack} {queue : List ReduQueueElem}
variable {qe : ReduQueueElem}

theorem mem_visited (inv : SearchInv root len edges limit starts paths visited stack [])
    {q : Rooted Int Int} (start : q.1 ∈ starts) (admissible : Paths.Admissible edges limit q) :
    q ∈ visited :=
  inv.search.mem_visited (under_emptyPaths_iff.mpr ⟨start, admissible⟩)

theorem frontier_cons {r : Rooted Int Int} (found : paths[qe.index]? = some r) :
    frontierOf paths (qe :: queue) = r :: frontierOf paths queue := by
  simp [frontierOf, found]

theorem pop (inv : SearchInv root len edges limit starts paths visited stack (qe :: queue)) :
    Holds root len paths stack queue :=
  ⟨inv.holds.stacked, fun b hb => inv.holds.queued b (List.mem_cons_of_mem qe hb),
    (List.pairwise_cons.mp inv.holds.sorted).2⟩

theorem top (graph : ReductionGraph edges targets)
    (inv : SearchInv root len edges limit starts paths visited stack (qe :: queue)) :
    ∃ r elem, Top len edges limit starts paths visited stack qe r elem := by
  obtain ⟨⟨a, p⟩, found, weight⟩ := inv.holds.queued qe List.mem_cons_self
  obtain ⟨elem, node, htype, pathlen⟩ := inv.holds.stacked.exists_elem found
  have search := inv.search
  rw [frontier_cons found] at search
  obtain ⟨start, admissible⟩ := under_emptyPaths_iff.mp (search.below (a, p) (by simp))
  have low : ∀ f ∈ (a, p) :: frontierOf paths queue, weightOf p ≤ weightOf f.2 := by
    intro f hf
    rcases List.mem_cons.mp hf with rfl | hf
    · exact le_rfl
    · obtain ⟨b, hb, rfl⟩ := List.mem_map.mp hf
      obtain ⟨q, hq, hw⟩ := inv.holds.queued b (List.mem_cons_of_mem qe hb)
      have := (List.pairwise_cons.mp inv.holds.sorted).1 b hb
      rw [weight, hw] at this
      simpa [hq] using this
  refine ⟨(a, p), elem, found, node, htype, pathlen, weight, start, admissible, fun h => ?_,
    fun q hstart hq fresh => ?_⟩
  · exact (List.nodup_append.mp search.nodup).2.2 (a, p) h (a, p) (by simp) rfl
  · exact search.le_weight (weightOf_children graph.nonneg) low
      (under_emptyPaths_iff.mpr ⟨hstart, hq⟩) fresh

theorem step (graph : ReductionGraph edges targets)
    (inv : SearchInv root len edges limit starts paths visited stack (qe :: queue))
    {r : Rooted Int Int} {elem : ReduStackElem}
    (top : Top len edges limit starts paths visited stack qe r elem)
    {paths' : List (Rooted Int Int)} {stack' : ReduStack} {queue' : List ReduQueueElem}
    (holds : Holds root len paths' stack' queue')
    (perm : (frontierOf paths' queue').Perm (children edges limit r ++ frontierOf paths queue)) :
    SearchInv root len edges limit starts paths' (r :: visited) stack' queue' ∧
      energy targets (frontierOf paths' queue') <
        energy targets (frontierOf paths (qe :: queue)) := by
  have search := inv.search
  rw [frontier_cons top.found] at search ⊢
  refine ⟨⟨holds, (search.expand (isTree graph.distinct starts)).perm perm.symm⟩, ?_⟩
  have few : (children edges limit r).length ≤ targets.length := by
    have sub := (graph.distinct r.last).subperm fun x hx => by
      obtain ⟨e, he, rfl⟩ := List.mem_map.mp hx
      exact graph.target _ e he
    have := sub.length_le
    rw [List.length_map] at this
    simp only [children, extensions, List.length_map]
    exact (List.length_filter_le _ _).trans this
  have short : r.2.length ≤ targets.length := length_le_of_targets graph.target top.admissible
  have deeper : ∀ c ∈ children edges limit r, c.2.length = r.2.length + 1 := by
    intro c hc
    obtain ⟨e, -, rfl⟩ := mem_children.mp hc
    simp
  have less := potential_children (fun r : Rooted Int Int => r.2.length) short few deeper
  simp only [energy, (perm.map _).sum_eq, List.map_append, List.sum_append, List.map_cons,
    List.sum_cons]
  omega

end SearchInv

namespace Phase

variable {paths visited : List (Rooted Int Int)} {stack : ReduStack} {queue : List ReduQueueElem}
variable {qe : ReduQueueElem} {r : Rooted Int Int} {elem : ReduStackElem}
variable {best : Option (Rooted Int Int)}

theorem first (phase : Phase edges limit starts goal visited none)
    (top : Top len edges limit starts paths visited stack qe r elem) (hit : goal r.last) :
    Phase edges limit starts goal (r :: visited) (some r) := by
  cases phase with
  | searching none_yet =>
    refine .found r ⟨top.start, top.admissible, hit⟩ List.mem_cons_self (fun v hv hgoal => ?_)
      fun q answer => ?_
    · rcases List.mem_cons.mp hv with rfl | hv
      · rfl
      · exact absurd hgoal (none_yet v hv)
    · exact top.least q answer.start answer.admissible fun hv => none_yet q hv answer.goal

theorem skip (phase : Phase edges limit starts goal visited best) (missed : ¬ goal r.last) :
    Phase edges limit starts goal (r :: visited) best := by
  cases phase with
  | searching none_yet =>
    refine .searching fun v hv => ?_
    rcases List.mem_cons.mp hv with rfl | hv
    · exact missed
    · exact none_yet v hv
  | found best answer visited only minimal =>
    refine .found best answer (List.mem_cons_of_mem r visited) (fun v hv hgoal => ?_) minimal
    rcases List.mem_cons.mp hv with rfl | hv
    · exact absurd hgoal missed
    · exact only v hv hgoal

theorem exhausted (inv : SearchInv root len edges limit starts paths visited stack [])
    (phase : Phase edges limit starts goal visited best) :
    Outcome edges limit starts goal epsilon (best.map fun r => (r, none)) := by
  cases phase with
  | searching none_yet =>
    exact .nothing fun q answer =>
      none_yet q (inv.mem_visited answer.start answer.admissible) answer.goal
  | found best answer _ only minimal =>
    exact .alone best answer minimal fun q other ne _ =>
      ne (only q (inv.mem_visited other.start other.admissible) other.goal)

theorem far (phase : Phase edges limit starts goal visited (some r)) {q : Rooted Int Int}
    (top : Top len edges limit starts paths visited stack qe q elem)
    (heavy : qe.weight > weightOf r.2 + epsilon) :
    Outcome edges limit starts goal epsilon (some (r, none)) := by
  cases phase with
  | found _ answer _ only minimal =>
    refine .alone r answer minimal fun q' other ne light => ?_
    have := top.least q' other.start other.admissible fun hv => ne (only q' hv other.goal)
    rw [← top.weight] at this
    linarith

theorem rival (phase : Phase edges limit starts goal visited (some r)) {q : Rooted Int Int}
    (top : Top len edges limit starts paths visited stack qe q elem) (hit : goal q.last)
    (light : ¬ qe.weight > weightOf r.2 + epsilon) :
    Outcome edges limit starts goal epsilon (some (r, some q)) := by
  cases phase with
  | found _ answer mem only minimal =>
    have ne : q ≠ r := fun same => top.unvisited (same ▸ mem)
    exact .rival r q answer minimal ⟨top.start, top.admissible, hit⟩ ne
      (top.weight ▸ not_lt.mp light)

end Phase

end Search

end Mewa
