/- Module: Mewa/TypeDb/Search
   digest: The derivation of a type is an exact search for the lightest path of reductions. -/

import Mewa.TypeDb.Frontier

set_option autoImplicit false
set_option relaxedAutoImplicit false

namespace Mewa

open Mewa.Lib Mewa.Lib.Paths Mewa.Lib.BestFirst

namespace TypeDatabase

/-- The path to the wanted type within a limit of counted edges, of any form. -/
structure Leads (edges : Int → List (Edge Int Int)) (fromType toType : Int) (limit : Nat)
    (p : Path Int Int) : Prop where
  path : IsPath edges fromType p
  target : endOf fromType p = toType
  count : countOf p ≤ limit

/-- The result is a simple path of the least weight, with its first competitor. -/
structure Lightest (edges : Int → List (Edge Int Int)) (fromType toType : Int) (limit : Nat)
    (epsilon : ℚ) (r : DeriveResult) (p : Path Int Int) : Prop where
  leads : Leads edges fromType toType limit p
  simple : Simple fromType p
  reductions : r.reductions = p.map fun e => ⟨e.target, e.label⟩
  weightsum : r.weightsum = weightOf p
  minimal : ∀ q, Leads edges fromType toType limit q → weightOf p ≤ weightOf q
  conflict_iff : r.conflictPath ≠ [] ↔ ∃ q, Leads edges fromType toType limit q ∧
    Simple fromType q ∧ q ≠ p ∧ weightOf q ≤ r.weightsum + epsilon
  conflict : r.conflictPath ≠ [] → ∃ q, Leads edges fromType toType limit q ∧
    Simple fromType q ∧ q ≠ p ∧ weightOf q ≤ r.weightsum + epsilon ∧
      r.conflictPath = q.map Edge.target

/-- What a derivation returns: the lightest path if there is one, or else nothing. -/
structure ExactSearch (edges : Int → List (Edge Int Int)) (fromType toType : Int) (limit : Nat)
    (epsilon : ℚ) (r : DeriveResult) : Prop where
  defined_iff : r.defined = true ↔ ∃ p, Leads edges fromType toType limit p
  found : r.defined = true → ∃ p, Lightest edges fromType toType limit epsilon r p
  nothing : r.defined = false → r.reductions = [] ∧ r.conflictPath = []

section Loop

variable {db : TypeDatabase} {args : DeriveArgs} {fromType : Int}

abbrev edgesOf (db : TypeDatabase) (args : DeriveArgs) : Int → List (Edge Int Int) :=
  db.reductionEdges args.step args.selectTags args.selectTagsCount

abbrev limitOf (args : DeriveArgs) : Nat := args.maxCount.toNat

/-- The length that the stack of a derivation keeps. -/
abbrev counted (p : Path Int Int) : Int := countOf p

private theorem pushFollow_ok (limited : 0 ≤ args.maxCount) {paths : List (Rooted Int Int)}
    {stack : ReduStack} {queue : List ReduQueueElem}
    (holds : Holds (fun _ => 0) counted paths stack queue) {qe : ReduQueueElem}
    {elem : ReduStackElem} {a : Int} {p : Path Int Int}
    (found : paths[qe.index]? = some (a, p)) (weight : qe.weight = weightOf p)
    (pathlen : elem.pathlen = countOf p) (redu : ResultElement Int Int) :
    ∃ paths' stack' queue',
      pushFollow args qe elem (stack, queue) redu = .ok (stack', queue') ∧
      Holds (fun _ => 0) counted paths' stack' queue' ∧ paths'[qe.index]? = some (a, p) ∧
      (frontierOf paths' queue').Perm
        (extension (limitOf args) (a, p) (reductionEdge args.selectTagsCount redu) ++
          frontierOf paths queue) := by
  obtain ⟨e, he⟩ : ∃ e, reductionEdge args.selectTagsCount redu = e := ⟨_, rfl⟩
  have target : redu.right = e.target := by rw [← he]; rfl
  have label : redu.value = e.label := by rw [← he]; rfl
  have heavier : redu.weight = e.weight := by rw [← he]; rfl
  have count : (if args.selectTagsCount.matchesTag redu.tagval then elem.pathlen + 1
      else elem.pathlen) = countOf (p ++ [e]) := by
    rw [pathlen, countOf_append, ← he]
    cases h : args.selectTagsCount.matchesTag redu.tagval <;> simp [countOf, reductionEdge, h]
  have allowed : ((countOf (p ++ [e]) : Nat) : Int) ≤ args.maxCount ↔
      countOf (p ++ [e]) ≤ limitOf args := by
    simp only [limitOf]
    omega
  have push := holds.stacked.pushIfNew_eq found e (countOf (p ++ [e]))
  rw [he]
  by_cases extends_ : countOf (p ++ [e]) ≤ limitOf args ∧ e.target ∉ nodes a p
  · -- the extension is a new path at the end of the stack
    obtain ⟨holds', found', perm⟩ := holds.follow found weight e
    refine ⟨_, _, _, ?_, holds', found', ?_⟩
    · simp only [pushFollow, count, allowed.mpr extends_.1, if_true, target, label, heavier, push,
        extends_.2, if_false, ok_bind]
    · rw [extension, if_pos extends_]
      exact perm
  · refine ⟨paths, stack, queue, ?_, holds, found, ?_⟩
    · by_cases hcount : countOf (p ++ [e]) ≤ limitOf args
      · have member : e.target ∈ nodes a p := by
          by_contra hmem
          exact extends_ ⟨hcount, hmem⟩
        simp only [pushFollow, count, allowed.mpr hcount, if_true, target, label, push, member,
          ok_bind]
      · simp only [pushFollow, count, allowed, hcount, if_false]
    · rw [extension, if_neg extends_]
      exact List.Perm.refl _

/-- The result after a path was found, with or without a conflict. -/
def resultOf (p : Path Int Int) (conflictPath : List Int) : DeriveResult where
  reductions := p.map fun e => ⟨e.target, e.label⟩
  conflictPath := conflictPath
  weightsum := weightOf p
  defined := true

def derived : Option (Rooted Int Int × Option (Rooted Int Int)) → DeriveResult
  | none => {}
  | some (r, none) => resultOf r.2 []
  | some (r, some q) => resultOf r.2 (q.2.map Edge.target)

private abbrev Inv (db : TypeDatabase) (args : DeriveArgs) (fromType : Int) :=
  SearchInv (fun _ => 0) counted (edgesOf db args) (limitOf args) [fromType]

private abbrev Ends (db : TypeDatabase) (args : DeriveArgs) (fromType : Int) :=
  Outcome (edgesOf db args) (limitOf args) [fromType] (· = args.toType) args.epsilon

private theorem deriveLoop_ends (sound : db.reduTable.Sound) (limited : 0 ≤ args.maxCount) :
    ∀ (bound : Nat) {paths visited : List (Rooted Int Int)} {stack : ReduStack}
      {queue : List ReduQueueElem} {best : Option (Rooted Int Int)},
      Inv db args fromType paths visited stack queue →
      Phase (edgesOf db args) (limitOf args) [fromType] (· = args.toType) visited best →
      energy (db.reduTable.list.map ListElement.related) (frontierOf paths queue) ≤ bound →
      ∃ o, (∀ fuel ≥ bound, deriveLoop db args fuel stack queue
          (derived (best.map fun r => (r, none))) best.isSome = .ok (derived o)) ∧
        Ends db args fromType o := by
  have graph := reductionGraph sound args.step args.selectTags args.selectTagsCount
  intro bound
  induction bound with
  | zero =>
    intro paths visited stack queue best inv phase enough
    cases queue with
    | nil => exact ⟨_, fun fuel _ => by cases fuel <;> rfl, phase.exhausted inv⟩
    | cons qe queue =>
      obtain ⟨r, elem, top⟩ := inv.top graph
      rw [SearchInv.frontier_cons top.found] at enough
      simp [energy, potential] at enough
  | succ bound ih =>
    intro paths visited stack queue best inv phase enough
    cases queue with
    | nil => exact ⟨_, fun fuel _ => by cases fuel <;> rfl, phase.exhausted inv⟩
    | cons qe queue =>
      obtain ⟨r, elem, top⟩ := inv.top graph
      obtain ⟨redulist, call, -⟩ := sound.get_ok args.step elem.type args.selectTags
      obtain ⟨paths', stack', queue', fold, holds', perm⟩ := inv.pop.fold
        (fun holds found redu => pushFollow_ok limited holds found top.weight top.pathlen redu)
        top.found redulist
      have edges : redulist.map (reductionEdge args.selectTagsCount) = edgesOf db args r.last := by
        rw [← top.type]
        simp [edgesOf, reductionEdges, call]
      rw [edges, extensions_eq] at perm
      obtain ⟨inv', less⟩ := inv.step graph top holds' perm
      -- one iteration, and the rest of the loop by the hypothesis
      have iterate {rt rt' : DeriveResult} {alt : Bool}
          (step : ∀ fuel ≥ bound, deriveLoop db args (fuel + 1) stack (qe :: queue) rt alt = .ok rt') :
          ∀ fuel ≥ bound + 1, deriveLoop db args fuel stack (qe :: queue) rt alt = .ok rt' := by
        intro fuel hfuel
        obtain ⟨fuel, rfl⟩ : ∃ n, fuel = n + 1 := ⟨fuel - 1, by omega⟩
        exact step fuel (by omega)
      cases best with
      | none =>
        by_cases target : elem.type = args.toType
        · have hit : r.last = args.toType := top.type.symm.trans target
          obtain ⟨o, loop, ends⟩ := ih inv' (phase.first top hit) (by omega)
          refine ⟨o, iterate fun fuel hfuel => ?_, ends⟩
          rw [target] at call
          rw [← loop fuel hfuel]
          simp [deriveLoop, top.node, target, inv.holds.stacked.collectResult_eq top.found,
            top.weight, call, fold, derived, resultOf]
        · obtain ⟨o, loop, ends⟩ := ih inv' (phase.skip (top.type ▸ target)) (by omega)
          refine ⟨o, iterate fun fuel hfuel => ?_, ends⟩
          rw [← loop fuel hfuel]
          simp [deriveLoop, top.node, target, call, fold]
      | some b =>
        by_cases far : qe.weight > weightOf b.2 + args.epsilon
        · refine ⟨_, iterate fun fuel _ => ?_, phase.far top far⟩
          simp [deriveLoop, derived, resultOf, far]
        · have near : ¬ weightOf b.2 + args.epsilon < qe.weight := far
          by_cases target : elem.type = args.toType
          · refine ⟨_, iterate fun fuel _ => ?_, phase.rival top (top.type.symm.trans target) far⟩
            simp [deriveLoop, derived, resultOf, near, top.node, target,
              inv.holds.stacked.collectConflictPath_eq top.found]
          · obtain ⟨o, loop, ends⟩ := ih inv' (phase.skip (top.type ▸ target)) (by omega)
            refine ⟨o, iterate fun fuel hfuel => ?_, ends⟩
            rw [← loop fuel hfuel]
            simp [deriveLoop, derived, resultOf, near, top.node, target, call, fold]

theorem simple_start {a : Int} {p : Path Int Int} (simple : Simple a p) (back : endOf a p = a) :
    p = [] := by
  rcases List.eq_nil_or_concat' p with rfl | ⟨q, e, rfl⟩
  · rfl
  · have hmem : a ∈ (q ++ [e]).map Edge.target := by
      rw [endOf_append] at back
      have : e.target = a := back
      simp [this]
    exact absurd hmem (List.nodup_cons.mp simple).1

private abbrev Derives (db : TypeDatabase) (args : DeriveArgs) (fromType : Int) :=
  Leads (edgesOf db args) fromType args.toType (limitOf args)

private theorem Leads.exists_answer (sound : db.reduTable.Sound) {p : Path Int Int}
    (leads : Derives db args fromType p) :
    ∃ q, Answer (edgesOf db args) (limitOf args) [fromType] (· = args.toType) (fromType, q) ∧
      weightOf q ≤ weightOf p := by
  have graph := reductionGraph sound args.step args.selectTags args.selectTagsCount
  obtain ⟨q, path, simple, hend, hweight, hcount⟩ := exists_simple graph.nonneg leads.path
  exact ⟨q, ⟨List.mem_singleton_self _, ⟨path, simple, hcount.trans leads.count⟩,
    hend.trans leads.target⟩, hweight⟩

private theorem answer_iff {r : Rooted Int Int} :
    Answer (edgesOf db args) (limitOf args) [fromType] (· = args.toType) r ↔
      r.1 = fromType ∧ Derives db args fromType r.2 ∧ Simple fromType r.2 := by
  obtain ⟨a, p⟩ := r
  constructor
  · rintro ⟨start, admissible, target⟩
    obtain rfl : a = fromType := List.mem_singleton.mp start
    exact ⟨rfl, ⟨admissible.path, target, admissible.count⟩, admissible.simple⟩
  · rintro ⟨rfl, leads, simple⟩
    exact ⟨List.mem_singleton_self _, ⟨leads.path, simple, leads.count⟩, leads.target⟩

private theorem exact_of_ends (sound : db.reduTable.Sound)
    {o : Option (Rooted Int Int × Option (Rooted Int Int))} (ends : Ends db args fromType o) :
    ExactSearch (edgesOf db args) fromType args.toType (limitOf args) args.epsilon (derived o) := by
  have lightest {r : Rooted Int Int}
      (minimal : ∀ q, Answer (edgesOf db args) (limitOf args) [fromType] (· = args.toType) q →
        weightOf r.2 ≤ weightOf q.2) (p : Path Int Int) (leads : Derives db args fromType p) :
      weightOf r.2 ≤ weightOf p := by
    obtain ⟨q, answer, le⟩ := leads.exists_answer sound
    exact (minimal _ answer).trans le
  cases ends with
  | nothing none_answers =>
    refine ⟨⟨fun h => by simp [derived] at h, fun ⟨p, leads⟩ => ?_⟩, fun h => by simp [derived] at h,
      fun _ => ⟨rfl, rfl⟩⟩
    obtain ⟨q, answer, -⟩ := leads.exists_answer sound
    exact absurd answer (none_answers _)
  | alone r answer minimal only =>
    obtain ⟨start, leads, simple⟩ := answer_iff.mp answer
    refine ⟨⟨fun _ => ⟨r.2, leads⟩, fun _ => rfl⟩, fun _ => ⟨r.2, leads, simple, rfl, rfl,
      lightest minimal, ⟨fun h => absurd rfl h, ?_⟩, fun h => absurd rfl h⟩,
      fun h => by simp [derived, resultOf] at h⟩
    rintro ⟨q, leads', simple', ne, light⟩
    exact absurd light (only (fromType, q) (answer_iff.mpr ⟨rfl, leads', simple'⟩)
      fun same => ne (congrArg Prod.snd same))
  | rival r q answer minimal answer' ne light =>
    obtain ⟨start, leads, simple⟩ := answer_iff.mp answer
    obtain ⟨start', leads', simple'⟩ := answer_iff.mp answer'
    have ne' : q.2 ≠ r.2 := fun same => ne (Prod.ext (start'.trans start.symm) same)
    refine ⟨⟨fun _ => ⟨r.2, leads⟩, fun _ => rfl⟩, fun _ => ⟨r.2, leads, simple, rfl, rfl,
      lightest minimal, ⟨fun _ => ⟨q.2, leads', simple', ne', light⟩, fun _ nil => ?_⟩,
      fun _ => ⟨q.2, leads', simple', ne', light, rfl⟩⟩, fun h => by simp [derived, resultOf] at h⟩
    -- a competitor without edges would be the path found
    have empty : q.2 = [] := List.map_eq_nil_iff.mp nil
    have back : endOf fromType r.2 = fromType := by
      rw [leads.target, ← leads'.target, empty]
      rfl
    exact ne' (empty.trans (simple_start simple back).symm)

end Loop

/-- A derivation returns the exact result for known types and any bound on the counted edges. -/
structure DerivesExactly (db : TypeDatabase) (epsilon : ℚ) (step toType fromType : Int)
    (selectTags selectTagsCount : TagMask) (maxCount : Int) : Prop where
  exact : db.validHandle 1 fromType → db.validHandle 0 toType → -1 ≤ maxCount →
    ∃ (r : DeriveResult) (bound : Nat),
      (∀ fuel ≥ bound, db.deriveType fuel epsilon step toType fromType selectTags selectTagsCount
        maxCount = .ok r) ∧
      ExactSearch (db.reductionEdges step selectTags selectTagsCount) fromType toType
        (countLimit maxCount).toNat epsilon r
  rejects : ¬ (db.validHandle 1 fromType ∧ db.validHandle 0 toType ∧ -1 ≤ maxCount) →
    ∀ fuel, ∃ e, db.deriveType fuel epsilon step toType fromType selectTags selectTagsCount
      maxCount = .error (.thrown e) ∧ (e.code = .InvalidHandle ∨ e.code = .InvalidBoundary)

private theorem countLimit_nonneg {maxCount : Int} : 0 ≤ countLimit maxCount ↔ -1 ≤ maxCount := by
  simp only [countLimit, maxInt]
  split_ifs with h
  · omega
  · omega

private theorem inv_start (db : TypeDatabase) (args : DeriveArgs) (fromType : Int) :
    Inv db args fromType [(fromType, [])] [] [⟨fromType, 0, none, 0⟩] [⟨0, 0⟩] := by
  have nothing : Holds (fun _ => 0) counted [] [] [] :=
    ⟨⟨rfl, by simp, by simp⟩, by simp [QueuePaths], List.Pairwise.nil⟩
  obtain ⟨holds, -⟩ := nothing.pushStart fromType
  exact ⟨holds, Search.start (emptyPaths_nodup (List.nodup_singleton fromType))⟩

/-- The derivation of a type is an exact search in every state of the database. -/
theorem deriveType_exact {db : TypeDatabase} (reached : Reached db) (epsilon : ℚ)
    (step toType fromType : Int) (selectTags selectTagsCount : TagMask) (maxCount : Int) :
    DerivesExactly db epsilon step toType fromType selectTags selectTagsCount maxCount where
  exact from_valid to_valid allowed := by
    have limited := countLimit_nonneg.mpr allowed
    have start := inv_start db
      ⟨step, toType, selectTags, selectTagsCount, countLimit maxCount, epsilon⟩ fromType
    obtain ⟨o, loop, ends⟩ := deriveLoop_ends reached.reduTable_sound limited _ start
      (.searching (by simp)) le_rfl
    refine ⟨derived o, energy (db.reduTable.list.map ListElement.related)
      (frontierOf [(fromType, [])] [⟨0, 0⟩]), fun fuel enough => ?_,
      exact_of_ends reached.reduTable_sound ends⟩
    rw [← loop fuel enough]
    simp [deriveType, from_valid, to_valid, not_lt.mpr limited, ReduStack.pushNonDuplicateStart,
      derived]
  rejects invalid fuel := by
    by_cases hfrom : db.validHandle 1 fromType
    · by_cases hto : db.validHandle 0 toType
      · have hlimit : countLimit maxCount < 0 := by
          by_contra h
          exact invalid ⟨hfrom, hto, countLimit_nonneg.mp (not_lt.mp h)⟩
        exact ⟨⟨.InvalidBoundary, toString maxCount, 0⟩,
          by simp [deriveType, hfrom, hto, hlimit, throw], Or.inr rfl⟩
      · exact ⟨⟨.InvalidHandle, toString toType, 0⟩, by simp [deriveType, hfrom, hto, throw],
          Or.inl rfl⟩
    · exact ⟨⟨.InvalidHandle, toString fromType, 0⟩, by simp [deriveType, hfrom, throw],
        Or.inl rfl⟩

/-- Four types with two ways of the same weight from the first to the last, and a cycle. -/
def diamond : TypeDatabase :=
  empty.calls [.defineType ⟨0, 9⟩ 0 "a" 0 [], .defineType ⟨0, 9⟩ 0 "b" 0 [],
    .defineType ⟨0, 9⟩ 0 "c" 0 [], .defineType ⟨0, 9⟩ 0 "d" 0 [],
    .defineReduction 1 ⟨0, 9⟩ 2 1 5 1 1, .defineReduction 1 ⟨0, 9⟩ 3 1 6 1 1,
    .defineReduction 1 ⟨0, 9⟩ 4 2 7 2 1, .defineReduction 1 ⟨0, 9⟩ 4 3 8 2 1,
    .defineReduction 1 ⟨0, 9⟩ 1 4 9 1 0]

theorem deriveType_exact_diamond :
    DerivesExactly diamond (1 / 8388608) 3 4 1 .matchAll .matchNothing (-1) :=
  deriveType_exact (Reached.empty.calls _) _ _ _ _ _ _ _

example : (diamond.deriveType 9 (1 / 8388608) 3 4 1 .matchAll .matchNothing (-1)) =
    .ok ⟨[⟨2, 5⟩, ⟨4, 7⟩], [3, 4], 2, true⟩ := by
  decide +kernel

end TypeDatabase

end Mewa
