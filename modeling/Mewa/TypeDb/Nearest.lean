/- Module: Mewa/TypeDb/Nearest
   digest: A name is resolved in the nearest context that defines it. -/

import Mewa.TypeDb.Frontier
import Mewa.TypeDb.Names
import Mewa.TypeDb.Overloads

set_option autoImplicit false
set_option relaxedAutoImplicit false

namespace Mewa

open Mewa.Lib Mewa.Lib.Paths Mewa.Lib.BestFirst

theorem TagMask.matchesTag_matchNothing (tagval : Nat) :
    TagMask.matchNothing.matchesTag tagval = false := by
  simp [TagMask.matchesTag, TagMask.matchNothing]

theorem StackPaths.collectWithRoot_eq {root : Int → Int} {len : Path Int Int → Int}
    {ar : ReduStack} {paths : List (Rooted Int Int)} (stack : StackPaths root len ar paths)
    {a : Int} (rootIndex : Int) :
    ∀ (fuel i : Nat) (p : Path Int Int), i < fuel → paths[i]? = some (a, p) →
      ∃ l, ReduStack.collectWithRoot ar fuel (some i) rootIndex = .ok (root a, l) ∧
        l.reverse.map (fun ee => (⟨ee.type, ee.constructor⟩ : TypeConstructorPair)) =
          p.map fun e => ⟨e.target, e.label⟩ := by
  intro fuel
  induction fuel with
  | zero => intro i p hi; omega
  | succ fuel ih =>
    intro i p hi found
    have hlen : i < ar.length := stack.length ▸ (List.getElem?_eq_some_iff.mp found).1
    have node : ar[i]? = some ar[i] := List.getElem?_eq_getElem hlen
    rcases List.eq_nil_or_concat' p with rfl | ⟨p, e, rfl⟩
    · obtain ⟨hprev, -, hroot, -⟩ := stack.start i _ a node found
      have none_left : ReduStack.collectWithRoot ar fuel none (root a) = .ok (root a, []) := by
        cases fuel <;> rfl
      exact ⟨[], by simp [ReduStack.collectWithRoot, node, hprev, hroot, none_left], rfl⟩
    · obtain ⟨⟨j, hj, hprev, before⟩, htype, hlabel, -⟩ := stack.follow i _ a p e node found
      obtain ⟨l, call, hl⟩ := ih j p (by omega) before
      refine ⟨ar[i] :: l, by simp [ReduStack.collectWithRoot, node, hprev, call], ?_⟩
      simp [hl, htype, hlabel]

theorem StackPaths.collectResultWithRootIndex_eq {root : Int → Int} {len : Path Int Int → Int}
    {ar : ReduStack} {paths : List (Rooted Int Int)} (stack : StackPaths root len ar paths)
    {r : Rooted Int Int} {i : Nat} (found : paths[i]? = some r) (rootIndex : Int) :
    ar.collectResultWithRootIndex rootIndex i =
      .ok (root r.1, r.2.map fun e => ⟨e.target, e.label⟩) := by
  have hlen : i < ar.length := stack.length ▸ (List.getElem?_eq_some_iff.mp found).1
  obtain ⟨l, call, hl⟩ := stack.collectWithRoot_eq rootIndex ar.length i r.2 hlen found
  simp only [ReduStack.collectResultWithRootIndex, call, ok_bind, hl]

namespace TypeDatabase

structure Visible (db : TypeDatabase) (step : Int) (name : String) (contextType type : Int) :
    Prop where
  known : db.identMap.find name ≠ 0
  defined : type ≠ 0
  found : db.typeTable.get step ⟨contextType, db.identMap.find name⟩ = .ok type

/-- The path from one of the contexts to one that defines the name, of any form. -/
structure LeadsToName (db : TypeDatabase) (step : Int) (contextTypes : List Int) (name : String)
    (selectTags : TagMask) (r : Rooted Int Int) : Prop where
  start : r.1 ∈ contextTypes
  path : IsPath (db.reductionEdges step selectTags .matchNothing) r.1 r.2
  defines : ∃ type, db.Visible step name r.last type

/-- The result is found on a simple path of the least weight, with its first competitor. -/
structure NearestContext (db : TypeDatabase) (epsilon : ℚ) (step : Int) (contextTypes : List Int)
    (name : String) (selectTags : TagMask) (result : ResolveResult) (r : Rooted Int Int) :
    Prop where
  leads : db.LeadsToName step contextTypes name selectTags r
  simple : Simple r.1 r.2
  minimal : ∀ q, db.LeadsToName step contextTypes name selectTags q → weightOf r.2 ≤ weightOf q.2
  contextType : result.contextType = r.last
  reductions : result.reductions = r.2.map fun e => ⟨e.target, e.label⟩
  weightsum : result.weightsum = weightOf r.2
  rootIndex : ∃ before after, contextTypes = before ++ r.1 :: after ∧ r.1 ∉ before ∧
    result.rootIndex = before.length + 1
  items : ∃ type, db.Visible step name r.last type ∧ Overloads db.typerecMap type result.items
  conflict_iff : result.conflictType ≠ -1 ↔
    ∃ q, db.LeadsToName step contextTypes name selectTags q ∧ Simple q.1 q.2 ∧ q ≠ r ∧
      weightOf q.2 ≤ weightOf r.2 + epsilon
  conflict : result.conflictType ≠ -1 →
    ∃ q, db.LeadsToName step contextTypes name selectTags q ∧ Simple q.1 q.2 ∧ q ≠ r ∧
      weightOf q.2 ≤ weightOf r.2 + epsilon ∧ result.conflictType = q.last

/-- What resolving a name returns: the nearest context if there is one, or else nothing. -/
structure ExactResolve (db : TypeDatabase) (epsilon : ℚ) (step : Int) (contextTypes : List Int)
    (name : String) (selectTags : TagMask) (result : ResolveResult) : Prop where
  undefined_iff : result.contextType = -1 ↔
    ∀ q, ¬ db.LeadsToName step contextTypes name selectTags q
  found : result.contextType ≠ -1 →
    ∃ r, NearestContext db epsilon step contextTypes name selectTags result r
  nothing : result.contextType = -1 → result = {}

/-- A name is resolved exactly for known context types, and not at all if it is unknown. Where no
    definitions overlap, the visible one is the innermost definition of its name around the step. -/
structure ResolvesExactly (db : TypeDatabase) (epsilon : ℚ) (step : Int) (contextTypes : List Int)
    (name : String) (selectTags : TagMask) : Prop where
  exact : (∀ c ∈ contextTypes, db.validHandle 0 c) → ∃ (result : ResolveResult) (bound : Nat),
    (∀ fuel ≥ bound, db.resolveType fuel epsilon step contextTypes name selectTags = .ok result) ∧
    ExactResolve db epsilon step contextTypes name selectTags result
  unknown : db.identMap.find name = 0 →
    ∀ fuel, db.resolveType fuel epsilon step contextTypes name selectTags = .ok {}
  rejects : db.identMap.find name ≠ 0 → ¬ (∀ c ∈ contextTypes, db.validHandle 0 c) →
    ∀ fuel, ∃ e, db.resolveType fuel epsilon step contextTypes name selectTags =
      .error (.thrown e) ∧ e.code = .InvalidHandle
  innermost : ∀ defs, MapReached db.typeTable defs → db.identMap.find name ≠ 0 →
    ∀ contextType, let key : TypeDef := ⟨contextType, db.identMap.find name⟩
      (∃ d ∈ defs, d.key = key ∧ d.scope.containsStep step = true ∧
        (∀ c ∈ defs, c.key = key → c.scope.containsStep step = true → d.scope ≤ c.scope) ∧
        db.Visible step name contextType d.value) ∨
      ((∀ c ∈ defs, c.key = key → ¬ c.scope.containsStep step = true) ∧
        ∀ type, ¬ db.Visible step name contextType type)

section Starts

variable {db : TypeDatabase} {contextTypes : List Int}

/-- The position of the first occurrence of a context, which its start holds as root index. -/
def rootIndexOf (contextTypes : List Int) (a : Int) : Int := contextTypes.idxOf a + 1

/-- The length that the stack of a search for a name keeps. -/
abbrev lengthOf (p : Path Int Int) : Int := p.length

structure Started (contextTypes done starts : List Int) (stack : ReduStack)
    (queue : List ReduQueueElem) : Prop where
  nodup : starts.Nodup
  mem_iff : ∀ a, a ∈ starts ↔ a ∈ done
  holds : Holds (rootIndexOf contextTypes) lengthOf (emptyPaths starts) stack queue
  frontier : (frontierOf (emptyPaths starts) queue).Perm (emptyPaths starts)

private theorem Started.any_iff {done starts : List Int} {stack : ReduStack}
    {queue : List ReduQueueElem} (started : Started contextTypes done starts stack queue)
    (a : Int) : (stack.any fun ee => ee.type = a) = true ↔ a ∈ done := by
  have stacked := started.holds.stacked
  have type {i : Nat} (inside : i < starts.length) :
      ∃ ee, stack[i]? = some ee ∧ ee.type = starts[i] := by
    have found : (emptyPaths starts : List (Rooted Int Int))[i]? = some (starts[i], []) := by
      simp [emptyPaths, inside]
    obtain ⟨ee, node, htype, -⟩ := stacked.exists_elem found
    exact ⟨ee, node, htype⟩
  have len : stack.length = starts.length := by simpa [emptyPaths] using stacked.length
  rw [← started.mem_iff, List.any_eq_true]
  constructor
  · rintro ⟨ee, mem, same⟩
    obtain ⟨i, inside, rfl⟩ := List.mem_iff_getElem.mp mem
    obtain ⟨ee', node, htype⟩ := type (i := i) (len ▸ inside)
    rw [List.getElem?_eq_getElem inside] at node
    rw [← of_decide_eq_true same, Option.some.inj node, htype]
    exact List.getElem_mem _
  · intro mem
    obtain ⟨i, inside, rfl⟩ := List.mem_iff_getElem.mp mem
    obtain ⟨ee, node, htype⟩ := type inside
    exact ⟨ee, List.mem_of_getElem? node, by simp [htype]⟩

private theorem Started.context {done starts rest : List Int} {a : Int}
    (split : contextTypes = done ++ a :: rest) {stack : ReduStack} {queue : List ReduQueueElem}
    (started : Started contextTypes done starts stack queue) (valid : db.validHandle 0 a) :
    ∃ starts' stack' queue', db.pushContext (stack, queue) (a, done.length) = .ok (stack', queue') ∧
      Started contextTypes (done ++ [a]) starts' stack' queue' := by
  by_cases known : a ∈ done
  · refine ⟨starts, stack, queue, ?_, started.nodup, fun b => ?_, started.holds, started.frontier⟩
    · simp [pushContext, valid, ReduStack.pushNonDuplicateStart, (started.any_iff a).mpr known]
    · rw [started.mem_iff, List.mem_append, List.mem_singleton]
      exact ⟨Or.inl, fun h => h.elim id fun same => same ▸ known⟩
  · have fresh : (stack.any fun ee => ee.type = a) = false :=
      Bool.eq_false_iff.mpr fun h => known ((started.any_iff a).mp h)
    have index : rootIndexOf contextTypes a = done.length + 1 := by
      rw [rootIndexOf, split, List.idxOf_append_of_notMem known, List.idxOf_cons_self]
      simp
    have notStart : a ∉ starts := fun h => known ((started.mem_iff a).mp h)
    obtain ⟨holds, perm⟩ := started.holds.pushStart a
    have paths : emptyPaths (starts ++ [a]) = emptyPaths starts ++ [((a, []) : Rooted Int Int)] := by
      simp [emptyPaths]
    refine ⟨starts ++ [a], _, _, ?_, ?_, fun b => ?_, paths ▸ holds, ?_⟩
    · simp only [pushContext, valid, not_true, if_false, ReduStack.pushNonDuplicateStart, fresh,
        Bool.false_eq_true, index]
      rfl
    · exact List.nodup_append.mpr ⟨started.nodup, List.nodup_singleton a, fun b hb c hc same =>
        notStart (List.mem_singleton.mp hc ▸ same ▸ hb)⟩
    · simp only [List.mem_append, started.mem_iff, List.mem_singleton]
    · rw [paths]
      exact perm.trans ((started.frontier.cons _).trans
        (List.perm_append_singleton _ _).symm)

private theorem pushContext_fold (valid : ∀ c ∈ contextTypes, db.validHandle 0 c) :
    ∃ starts stack queue, contextTypes.zipIdx.foldlM db.pushContext ([], []) = .ok (stack, queue) ∧
      Started contextTypes contextTypes starts stack queue := by
  have general : ∀ (rest done starts : List Int) (stack : ReduStack) (queue : List ReduQueueElem),
      contextTypes = done ++ rest → Started contextTypes done starts stack queue →
      ∃ starts' stack' queue',
        (rest.zipIdx done.length).foldlM db.pushContext (stack, queue) = .ok (stack', queue') ∧
        Started contextTypes contextTypes starts' stack' queue' := by
    intro rest
    induction rest with
    | nil =>
      intro done starts stack queue split started
      rw [List.append_nil] at split
      exact ⟨starts, stack, queue, rfl, split ▸ started⟩
    | cons a rest ih =>
      intro done starts stack queue split started
      obtain ⟨starts', stack', queue', push, started'⟩ :=
        started.context split (valid a (by simp [split]))
      obtain ⟨starts'', stack'', queue'', call, started''⟩ :=
        ih (done ++ [a]) starts' stack' queue' (by simp [split]) started'
      refine ⟨starts'', stack'', queue'', ?_, started''⟩
      rw [List.zipIdx_cons, List.foldlM_cons, push, ok_bind]
      simpa using call
  exact general contextTypes [] [] [] [] rfl ⟨List.nodup_nil, by simp,
    ⟨⟨rfl, by simp [emptyPaths], by simp [emptyPaths]⟩, by simp [QueuePaths], List.Pairwise.nil⟩,
    by simp [frontierOf, emptyPaths]⟩

private theorem pushContext_throws (invalid : ¬ ∀ c ∈ contextTypes, db.validHandle 0 c) :
    ∃ e, contextTypes.zipIdx.foldlM db.pushContext ([], []) = .error (.thrown e) ∧
      e.code = .InvalidHandle := by
  have general : ∀ (rest : List Int) (n : Nat) (state : ReduStack × List ReduQueueElem),
      (¬ ∀ c ∈ rest, db.validHandle 0 c) →
      ∃ e, (rest.zipIdx n).foldlM db.pushContext state = .error (.thrown e) ∧
        e.code = .InvalidHandle := by
    intro rest
    induction rest with
    | nil => intro n state invalid; simp at invalid
    | cons a rest ih =>
      intro n state invalid
      rw [List.zipIdx_cons, List.foldlM_cons]
      by_cases valid : db.validHandle 0 a
      · obtain ⟨state', push⟩ : ∃ state', db.pushContext state (a, n) = .ok state' := by
          simp only [pushContext, valid, not_true, if_false]
          split
          · exact ⟨_, rfl⟩
          · exact ⟨_, rfl⟩
        rw [push, ok_bind]
        exact ih (n + 1) state' fun all => invalid (by simpa [valid] using all)
      · exact ⟨⟨.InvalidHandle, toString a, 0⟩, by simp [pushContext, valid, throw], rfl⟩
  exact general contextTypes 0 ([], []) invalid

end Starts

section Loop

variable {db : TypeDatabase} {args : ResolveArgs} {contextTypes starts : List Int}

/-- The edges of one search for a name, of which none counts. -/
abbrev contextEdges (db : TypeDatabase) (args : ResolveArgs) : Int → List (Edge Int Int) :=
  db.reductionEdges args.step args.selectTags .matchNothing

/-- The type that the name of a search stands for, or 0. -/
def typeAt (db : TypeDatabase) (args : ResolveArgs) (contextType : Int) : Int :=
  ((db.typeTable.get args.step ⟨contextType, args.nameid⟩).toOption).getD 0

private theorem typeAt_eq (sound : TypesSound db) (args : ResolveArgs) (contextType : Int) :
    db.typeTable.get args.step ⟨contextType, args.nameid⟩ = .ok (typeAt db args contextType) ∧
      (typeAt db args contextType ≠ 0 → db.validHandle 1 (typeAt db args contextType)) := by
  obtain ⟨type, call, known⟩ := ScopedMap.get_ok sound.table args.step
    (⟨contextType, args.nameid⟩ : TypeDef)
  have eq : typeAt db args contextType = type := by simp [typeAt, call, Except.toOption]
  refine ⟨eq ▸ call, fun defined => ?_⟩
  rcases known with null | ⟨scope, mem, -⟩
  · exact absurd (eq.trans (null.trans sound.nullval)) defined
  · exact eq ▸ sound.values _ mem

/-- The overloads of the type that the name of a search stands for. -/
def itemsAt (db : TypeDatabase) (args : ResolveArgs) (contextType : Int) : List Int :=
  ((db.collectResultItems db.typerecMap.length (typeAt db args contextType)).toOption).getD []

private theorem itemsAt_eq (sound : TypesSound db) {contextType : Int}
    (defined : typeAt db args contextType ≠ 0) :
    db.collectResultItems db.typerecMap.length (typeAt db args contextType) =
        .ok (itemsAt db args contextType) ∧
      Overloads db.typerecMap (typeAt db args contextType) (itemsAt db args contextType) := by
  obtain ⟨lower, upper⟩ := (typeAt_eq sound args contextType).2 defined
  obtain ⟨type, eq⟩ := Int.eq_ofNat_of_zero_le (Int.le_of_lt lower)
  obtain ⟨items, call, overloads⟩ := @TypesSound.collectResultItems_ok db sound
    db.typerecMap.length type (by omega) (by omega)
  rw [← eq] at call overloads
  have same : itemsAt db args contextType = items := by simp [itemsAt, call, Except.toOption]
  exact ⟨same ▸ call, same ▸ overloads⟩

private theorem pushReduction_ok {root : Int → Int} {paths : List (Rooted Int Int)}
    {stack : ReduStack} {queue : List ReduQueueElem}
    (holds : Holds root lengthOf paths stack queue) {qe : ReduQueueElem} {elem : ReduStackElem}
    {a : Int} {p : Path Int Int} (found : paths[qe.index]? = some (a, p))
    (weight : qe.weight = weightOf p) (pathlen : elem.pathlen = lengthOf p)
    (uncounted : countOf p ≤ 0) (redu : ResultElement Int Int) :
    ∃ paths' stack' queue',
      pushReduction qe elem (stack, queue) redu = .ok (stack', queue') ∧
      Holds root lengthOf paths' stack' queue' ∧ paths'[qe.index]? = some (a, p) ∧
      (frontierOf paths' queue').Perm
        (extension 0 (a, p) (reductionEdge .matchNothing redu) ++ frontierOf paths queue) := by
  obtain ⟨e, he⟩ : ∃ e, reductionEdge .matchNothing redu = e := ⟨_, rfl⟩
  have target : redu.right = e.target := by rw [← he]; rfl
  have label : redu.value = e.label := by rw [← he]; rfl
  have heavier : redu.weight = e.weight := by rw [← he]; rfl
  have allowed : countOf (p ++ [e]) ≤ 0 := by
    rw [countOf_append, ← he]
    simpa [countOf, reductionEdge, TagMask.matchesTag_matchNothing] using uncounted
  have length : elem.pathlen + 1 = lengthOf (p ++ [e]) := by simp [pathlen, lengthOf]
  have push := holds.stacked.pushIfNew_eq found e (lengthOf (p ++ [e]))
  rw [he]
  by_cases on_path : e.target ∈ nodes a p
  · refine ⟨paths, stack, queue, ?_, holds, found, ?_⟩
    · simp only [pushReduction, target, label, length, push, on_path, if_true, ok_bind]
    · rw [extension, if_neg fun h => h.2 on_path]
      exact List.Perm.refl _
  · obtain ⟨holds', found', perm⟩ := holds.follow found weight e
    refine ⟨_, _, _, ?_, holds', found', ?_⟩
    · simp only [pushReduction, target, label, length, heavier, push, on_path, if_false, ok_bind]
    · rw [extension, if_pos ⟨allowed, on_path⟩]
      exact perm

/-- The result after a context was found, with or without a conflict. -/
def matchOf (db : TypeDatabase) (args : ResolveArgs) (contextTypes : List Int)
    (r : Rooted Int Int) (conflictType : Int) : ResolveResult where
  reductions := r.2.map fun e => ⟨e.target, e.label⟩
  items := itemsAt db args r.last
  rootIndex := rootIndexOf contextTypes r.1
  contextType := r.last
  conflictType := conflictType
  weightsum := weightOf r.2

/-- The result of a search for a name from the end of the search. -/
def resolved (db : TypeDatabase) (args : ResolveArgs) (contextTypes : List Int) :
    Option (Rooted Int Int × Option (Rooted Int Int)) → ResolveResult
  | none => {}
  | some (r, none) => matchOf db args contextTypes r (-1)
  | some (r, some q) => matchOf db args contextTypes r q.last

private theorem resolveLoop_ends (sound : db.reduTable.Sound) (types : TypesSound db) :
    ∀ (bound : Nat) {paths visited : List (Rooted Int Int)} {stack : ReduStack}
      {queue : List ReduQueueElem} {best : Option (Rooted Int Int)},
      SearchInv (rootIndexOf contextTypes) lengthOf (contextEdges db args) 0 starts paths visited
        stack queue →
      Phase (contextEdges db args) 0 starts (typeAt db args · ≠ 0) visited best →
      energy (db.reduTable.list.map ListElement.related) (frontierOf paths queue) ≤ bound →
      ∃ o, (∀ fuel ≥ bound, resolveLoop db args fuel stack queue
          (resolved db args contextTypes (best.map fun r => (r, none))) best.isSome =
            .ok (resolved db args contextTypes o)) ∧
        Outcome (contextEdges db args) 0 starts (typeAt db args · ≠ 0) args.epsilon o := by
  have graph := reductionGraph sound args.step args.selectTags .matchNothing
  intro bound
  induction bound with
  | zero =>
    intro paths visited stack queue best inv phase enough
    cases queue with
    | nil => exact ⟨_, fun fuel _ => by cases fuel <;> rfl, phase.exhausted inv⟩
    | cons qe queue =>
      obtain ⟨r, elem, top⟩ := inv.top graph
      rw [SearchInv.frontier_cons top.found] at enough
      simp [energy, potential] at enough
  | succ bound ih =>
    intro paths visited stack queue best inv phase enough
    cases queue with
    | nil => exact ⟨_, fun fuel _ => by cases fuel <;> rfl, phase.exhausted inv⟩
    | cons qe queue =>
      obtain ⟨r, elem, top⟩ := inv.top graph
      obtain ⟨redulist, call, -⟩ := sound.get_ok args.step elem.type args.selectTags
      obtain ⟨paths', stack', queue', fold, holds', perm⟩ := inv.pop.fold
        (fun holds found redu => pushReduction_ok holds found top.weight top.pathlen
          top.admissible.count redu) top.found redulist
      have edges : redulist.map (reductionEdge .matchNothing) = contextEdges db args r.last := by
        rw [← top.type]
        simp [contextEdges, reductionEdges, call]
      rw [edges, extensions_eq] at perm
      obtain ⟨inv', less⟩ := inv.step graph top holds' perm
      obtain ⟨goal, -⟩ := typeAt_eq types args r.last
      rw [top.type] at call
      -- one iteration, and the rest of the loop by the hypothesis
      have iterate {rt rt' : ResolveResult} {alt : Bool}
          (step : ∀ fuel ≥ bound,
            resolveLoop db args (fuel + 1) stack (qe :: queue) rt alt = .ok rt') :
          ∀ fuel ≥ bound + 1, resolveLoop db args fuel stack (qe :: queue) rt alt = .ok rt' := by
        intro fuel hfuel
        obtain ⟨fuel, rfl⟩ : ∃ n, fuel = n + 1 := ⟨fuel - 1, by omega⟩
        exact step fuel (by omega)
      cases best with
      | none =>
        by_cases hit : typeAt db args r.last = 0
        · obtain ⟨o, loop, ends⟩ := ih inv' (phase.skip (not_not.mpr hit)) (by omega)
          refine ⟨o, iterate fun fuel hfuel => ?_, ends⟩
          rw [← loop fuel hfuel]
          simp [resolveLoop, top.node, top.type, goal, hit, call, fold]
        · obtain ⟨o, loop, ends⟩ := ih inv' (phase.first top hit) (by omega)
          refine ⟨o, iterate fun fuel hfuel => ?_, ends⟩
          rw [← loop fuel hfuel]
          simp [resolveLoop, top.node, top.type, goal, hit,
            inv.holds.stacked.collectResultWithRootIndex_eq top.found, (itemsAt_eq types hit).1,
            top.weight, call, fold, resolved, matchOf]
      | some b =>
        by_cases far : qe.weight > weightOf b.2 + args.epsilon
        · refine ⟨_, iterate fun fuel _ => ?_, phase.far top far⟩
          simp [resolveLoop, resolved, matchOf, far]
        · have near : ¬ weightOf b.2 + args.epsilon < qe.weight := far
          by_cases hit : typeAt db args r.last = 0
          · obtain ⟨o, loop, ends⟩ := ih inv' (phase.skip (not_not.mpr hit)) (by omega)
            refine ⟨o, iterate fun fuel hfuel => ?_, ends⟩
            rw [← loop fuel hfuel]
            simp [resolveLoop, resolved, matchOf, near, top.node, top.type, goal, hit, call, fold]
          · refine ⟨_, iterate fun fuel _ => ?_, phase.rival top hit far⟩
            simp [resolveLoop, resolved, matchOf, near, top.node, top.type, goal, hit]

theorem countOf_contextEdges {a : Int} {p : Path Int Int}
    (path : IsPath (contextEdges db args) a p) : countOf p = 0 := by
  induction p generalizing a with
  | nil => rfl
  | cons e p ih =>
    have uncounted : e.counted = false := by
      have mem := path.1
      simp only [contextEdges, reductionEdges] at mem
      split at mem
      · obtain ⟨redu, -, rfl⟩ := List.mem_map.mp mem
        exact TagMask.matchesTag_matchNothing _
      · simp at mem
    have rest := ih path.2
    simp only [countOf] at rest ⊢
    simp [rest, uncounted]

theorem validHandle_last (sound : db.reduTable.Sound) (types : TypesSound db) {a : Int}
    {p : Path Int Int} (valid : db.validHandle 0 a) (path : IsPath (contextEdges db args) a p) :
    db.validHandle 0 (endOf a p) := by
  induction p generalizing a with
  | nil => exact valid
  | cons e p ih =>
    have graph := reductionGraph sound args.step args.selectTags .matchNothing
    obtain ⟨redu, mem, same⟩ := List.mem_map.mp (graph.target a e path.1)
    exact ih (same ▸ types.related redu mem) path.2

end Loop

section Exact

variable {db : TypeDatabase} {args : ResolveArgs} {contextTypes starts : List Int} {name : String}

theorem visible_iff (types : TypesSound db) (nameid : args.nameid = db.identMap.find name)
    (known : args.nameid ≠ 0) {contextType type : Int} :
    db.Visible args.step name contextType type ↔
      typeAt db args contextType = type ∧ type ≠ 0 := by
  obtain ⟨call, -⟩ := typeAt_eq types args contextType
  rw [nameid] at call
  constructor
  · rintro ⟨-, defined, found⟩
    exact ⟨Except.ok.inj (call.symm.trans found), defined⟩
  · rintro ⟨rfl, defined⟩
    exact ⟨nameid ▸ known, defined, call⟩

private abbrev Resolves (db : TypeDatabase) (args : ResolveArgs) (contextTypes : List Int)
    (name : String) : Rooted Int Int → Prop :=
  db.LeadsToName args.step contextTypes name args.selectTags

private abbrev Answers (db : TypeDatabase) (args : ResolveArgs) (starts : List Int) :
    Rooted Int Int → Prop :=
  Answer (contextEdges db args) 0 starts (typeAt db args · ≠ 0)

private theorem answers_iff (types : TypesSound db)
    (nameid : args.nameid = db.identMap.find name) (known : args.nameid ≠ 0)
    (mem_iff : ∀ a, a ∈ starts ↔ a ∈ contextTypes) {r : Rooted Int Int} :
    Answers db args starts r ↔ Resolves db args contextTypes name r ∧ Simple r.1 r.2 := by
  constructor
  · rintro ⟨start, admissible, defined⟩
    exact ⟨⟨(mem_iff _).mp start, admissible.path, _,
      (visible_iff types nameid known).mpr ⟨rfl, defined⟩⟩, admissible.simple⟩
  · rintro ⟨⟨start, path, type, visible⟩, simple⟩
    obtain ⟨rfl, defined⟩ := (visible_iff types nameid known).mp visible
    exact ⟨(mem_iff _).mpr start, ⟨path, simple, (countOf_contextEdges path).le⟩, defined⟩

private theorem exists_answer (sound : db.reduTable.Sound) (types : TypesSound db)
    (nameid : args.nameid = db.identMap.find name) (known : args.nameid ≠ 0)
    (mem_iff : ∀ a, a ∈ starts ↔ a ∈ contextTypes) {r : Rooted Int Int}
    (leads : Resolves db args contextTypes name r) :
    ∃ q, Answers db args starts q ∧ weightOf q.2 ≤ weightOf r.2 := by
  have graph := reductionGraph sound args.step args.selectTags .matchNothing
  obtain ⟨p, path, simple, hend, hweight, -⟩ := exists_simple graph.nonneg leads.path
  obtain ⟨type, visible⟩ := leads.defines
  have same : Rooted.last (r.1, p) = r.last := hend
  exact ⟨(r.1, p), (answers_iff types nameid known mem_iff).mpr
    ⟨⟨leads.start, path, type, same ▸ visible⟩, simple⟩, hweight⟩

theorem rootIndexOf_split {a : Int} (listed : a ∈ contextTypes) :
    ∃ before after, contextTypes = before ++ a :: after ∧ a ∉ before ∧
      rootIndexOf contextTypes a = before.length + 1 := by
  obtain ⟨before, after, split, fresh⟩ := List.eq_append_cons_of_mem listed
  refine ⟨before, after, split, fresh, ?_⟩
  rw [rootIndexOf, split, List.idxOf_append_of_notMem fresh, List.idxOf_cons_self]
  simp

private theorem exactResolve (sound : db.reduTable.Sound) (types : TypesSound db)
    (nameid : args.nameid = db.identMap.find name) (known : args.nameid ≠ 0)
    (valid : ∀ c ∈ contextTypes, db.validHandle 0 c)
    (mem_iff : ∀ a, a ∈ starts ↔ a ∈ contextTypes)
    {o : Option (Rooted Int Int × Option (Rooted Int Int))}
    (ends : Outcome (contextEdges db args) 0 starts (typeAt db args · ≠ 0) args.epsilon o) :
    ExactResolve db args.epsilon args.step contextTypes name args.selectTags
      (resolved db args contextTypes o) := by
  have answers {r : Rooted Int Int} := @answers_iff db args contextTypes starts name types nameid
    known mem_iff r
  have positive {r : Rooted Int Int} (leads : Resolves db args contextTypes name r) :
      r.last ≠ -1 := by
    have lower := (validHandle_last sound types (valid _ leads.start) leads.path).1
    have eq : r.last = endOf r.1 r.2 := rfl
    omega
  have lightest {r : Rooted Int Int}
      (minimal : ∀ q, Answers db args starts q → weightOf r.2 ≤ weightOf q.2)
      (q : Rooted Int Int) (leads : Resolves db args contextTypes name q) :
      weightOf r.2 ≤ weightOf q.2 := by
    obtain ⟨q', answer, le⟩ := exists_answer sound types nameid known mem_iff leads
    exact (minimal _ answer).trans le
  have items {r : Rooted Int Int} (answer : Answers db args starts r) :
      ∃ type, db.Visible args.step name r.last type ∧
        Overloads db.typerecMap type (itemsAt db args r.last) :=
    ⟨_, (visible_iff types nameid known).mpr ⟨rfl, answer.goal⟩, (itemsAt_eq types answer.goal).2⟩
  cases ends with
  | nothing none_answers =>
    refine ⟨⟨fun _ q leads => ?_, fun _ => rfl⟩, fun h => absurd rfl h, fun _ => rfl⟩
    obtain ⟨q', answer, -⟩ := exists_answer sound types nameid known mem_iff leads
    exact none_answers q' answer
  | alone r answer minimal only =>
    obtain ⟨leads, simple⟩ := answers.mp answer
    refine ⟨⟨fun h => absurd h (positive leads), fun h => absurd leads (h r)⟩, fun _ => ⟨r, leads,
      simple, lightest minimal, rfl, rfl, rfl, rootIndexOf_split leads.start, items answer,
      ⟨fun h => absurd rfl h, ?_⟩, fun h => absurd rfl h⟩, fun h => absurd h (positive leads)⟩
    rintro ⟨q, leads', simple', ne, light⟩
    exact absurd light (only q (answers.mpr ⟨leads', simple'⟩) ne)
  | rival r q answer minimal answer' ne light =>
    obtain ⟨leads, simple⟩ := answers.mp answer
    obtain ⟨leads', simple'⟩ := answers.mp answer'
    exact ⟨⟨fun h => absurd h (positive leads), fun h => absurd leads (h r)⟩, fun _ => ⟨r, leads,
      simple, lightest minimal, rfl, rfl, rfl, rootIndexOf_split leads.start, items answer,
      ⟨fun _ => ⟨q, leads', simple', ne, light⟩, fun _ => positive leads'⟩,
      fun _ => ⟨q, leads', simple', ne, light, rfl⟩⟩, fun h => absurd h (positive leads)⟩

end Exact

theorem get_innermost {κ V : Type} [LinearOrder κ] {map : ScopedMap κ V}
    {defs : List (Definition κ V)} (reached : MapReached map defs) (step : Int) (key : κ) :
    (∃ d ∈ defs, d.key = key ∧ d.scope.containsStep step = true ∧
      (∀ c ∈ defs, c.key = key → c.scope.containsStep step = true → d.scope ≤ c.scope) ∧
      map.get step key = .ok d.value ∧ (d.scope, d.value) ∈ contents map.invtree) ∨
    ((∀ c ∈ defs, c.key = key → ¬ c.scope.containsStep step = true) ∧
      map.get step key = .ok map.invtree.nullval) := by
  obtain ⟨represents, wellScoped⟩ := reached.represents
  rcases (answersInnermost represents wellScoped rfl).inner step key with
    ⟨d, hd, hkey, hstep, least, call⟩ | nothing
  · obtain ⟨i, hi⟩ := List.getElem?_of_mem hd
    obtain ⟨uv, node, hscope, hvalue⟩ := represents.content.node hi
    exact Or.inl ⟨d, hd, hkey, hstep, least, call,
      List.mem_map.mpr ⟨uv, List.mem_of_getElem? node, by rw [hscope, hvalue]⟩⟩
  · exact Or.inr nothing

section Names

variable {db : TypeDatabase} {epsilon : ℚ} {step : Int} {contextTypes : List Int} {name : String}
  {selectTags : TagMask}

theorem resolveType_of_fits (fits : NameFits name) (fuel : Nat) :
    db.resolveType fuel epsilon step contextTypes name selectTags =
      if db.identMap.find name = 0 then .ok {} else
        contextTypes.zipIdx.foldlM db.pushContext ([], []) >>= fun start =>
          db.resolveLoop ⟨step, db.identMap.find name, selectTags, epsilon⟩ fuel start.1 start.2 {}
            false := by
  rw [resolveType, db.identMap.lookup_of_fits fits, ok_bind]

/-- A name without a key is not resolved, the program has written outside of the block of the key. -/
theorem resolveType_of_long (long : ¬ NameFits name) (fuel : Nat) :
    db.resolveType fuel epsilon step contextTypes name selectTags = .error .outOfRange := by
  rw [resolveType, db.identMap.lookup_of_long long, error_bind]

end Names

theorem resolveType_exact {db : TypeDatabase} (reached : Reached db) (epsilon : ℚ) (step : Int)
    (contextTypes : List Int) {name : String} (fits : NameFits name) (selectTags : TagMask) :
    ResolvesExactly db epsilon step contextTypes name selectTags where
  exact valid := by
    have sound := reached.reduTable_sound
    have types := reached.typesSound
    by_cases known : db.identMap.find name = 0
    · -- a name that is not in the map of identifiers has no definition
      refine ⟨{}, 0, fun fuel _ => by rw [resolveType_of_fits fits, if_pos known],
        ⟨fun _ q leads => ?_, fun _ => rfl⟩, fun h => absurd rfl h, fun _ => rfl⟩
      obtain ⟨type, visible⟩ := leads.defines
      exact visible.known known
    · let args : ResolveArgs := ⟨step, db.identMap.find name, selectTags, epsilon⟩
      obtain ⟨starts, stack, queue, call, started⟩ := pushContext_fold valid
      have inv : SearchInv (rootIndexOf contextTypes) lengthOf (contextEdges db args) 0 starts
          (emptyPaths starts) [] stack queue :=
        ⟨started.holds, (Search.start (emptyPaths_nodup started.nodup)).perm started.frontier.symm⟩
      obtain ⟨o, loop, ends⟩ := resolveLoop_ends sound types _ inv (.searching (by simp)) le_rfl
      refine ⟨resolved db args contextTypes o, energy (db.reduTable.list.map ListElement.related)
        (frontierOf (emptyPaths starts) queue), fun fuel enough => ?_,
        exactResolve sound types rfl known valid started.mem_iff ends⟩
      rw [← loop fuel enough, resolveType_of_fits fits, if_neg known, call]
      rfl
  unknown known fuel := by rw [resolveType_of_fits fits, if_pos known]
  rejects known invalid fuel := by
    obtain ⟨e, call, code⟩ := pushContext_throws invalid
    refine ⟨e, ?_, code⟩
    rw [resolveType_of_fits fits, if_neg known, call, error_bind]
  innermost defs reachedDefs known contextType := by
    have types := reached.typesSound
    rcases get_innermost reachedDefs step
      (⟨contextType, db.identMap.find name⟩ : TypeDef) with
      ⟨d, hd, hkey, hstep, least, call, mem⟩ | ⟨nothing, call⟩
    · have positive := (types.values _ mem).1
      exact Or.inl ⟨d, hd, hkey, hstep, least, known, by dsimp only at positive; omega, call⟩
    · refine Or.inr ⟨nothing, fun type visible => visible.defined ?_⟩
      rw [types.nullval] at call
      exact Except.ok.inj (visible.found.symm.trans call)

/-- A name is resolved exactly as specified if and only if its key has a block. -/
theorem resolveType_exact_iff {db : TypeDatabase} (reached : Reached db) (epsilon : ℚ) (step : Int)
    (contextTypes : List Int) (name : String) (selectTags : TagMask) :
    ResolvesExactly db epsilon step contextTypes name selectTags ↔ NameFits name := by
  constructor
  · intro exact
    by_contra long
    have failed := fun fuel => @resolveType_of_long db epsilon step contextTypes name selectTags
      long fuel
    by_cases known : db.identMap.find name = 0
    · have call := exact.unknown known 0
      rw [failed] at call
      cases call
    · by_cases valid : ∀ c ∈ contextTypes, db.validHandle 0 c
      · obtain ⟨result, bound, calls, -⟩ := exact.exact valid
        have call := calls bound le_rfl
        rw [failed] at call
        cases call
      · obtain ⟨e, call, -⟩ := exact.rejects known valid 0
        rw [failed] at call
        cases call
  · exact fun fits => resolveType_exact reached epsilon step contextTypes fits selectTags

/-- Three contexts: the first two are reduced to the third, which has two types with one name. -/
def members : TypeDatabase :=
  empty.calls [.defineType ⟨0, 9⟩ 0 "a" 0 [], .defineType ⟨0, 9⟩ 0 "b" 0 [],
    .defineType ⟨0, 9⟩ 0 "c" 0 [], .defineType ⟨0, 9⟩ 3 "x" 0 [],
    .defineType ⟨0, 9⟩ 3 "x" 0 [⟨1, 0⟩], .defineReduction 1 ⟨0, 9⟩ 3 1 5 1 2,
    .defineReduction 1 ⟨0, 9⟩ 3 2 6 1 1]

theorem resolveType_exact_iff_members :
    ResolvesExactly members (1 / 8388608) 3 [1, 2, 1] "x" .matchAll ∧
      members.resolveType 9 (1 / 8388608) 3 [1, 2, 1] "x" .matchAll =
        .ok ⟨[⟨3, 6⟩], [4, 5], 2, 3, -1, 1⟩ :=
  ⟨(resolveType_exact_iff (Reached.empty.calls _) _ _ _ _ _).mpr (by decide), by decide +kernel⟩

/-- Even an empty database does not answer that it knows no such name. -/
theorem longName_unresolved : Reached empty ∧ (∀ c ∈ [0], empty.validHandle 0 c) ∧
    (∀ fuel, empty.resolveType fuel 0 3 [0] longName .matchAll = .error .outOfRange) ∧
    ¬ ResolvesExactly empty 0 3 [0] longName .matchAll := by
  have failed := fun fuel => @resolveType_of_long empty 0 3 [0] longName .matchAll longName_long fuel
  refine ⟨.empty, by decide, failed, fun exact => ?_⟩
  obtain ⟨result, bound, calls, -⟩ := exact.exact (by decide)
  have call := calls bound le_rfl
  rw [failed] at call
  cases call

end TypeDatabase

end Mewa
