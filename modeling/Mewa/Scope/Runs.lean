/- Module: Mewa/Scope/Runs
   digest: Runs of defining calls on scoped containers, and what every query answers after them. -/

import Mewa.Scope.Lookup

set_option autoImplicit false
set_option relaxedAutoImplicit false

namespace Mewa

open Mewa.Lib Definition

variable {κ V : Type}

inductive MapCall (κ V : Type)
  | set (scope : Scope) (key : κ) (value : V)
  | getOrSet (scope : Scope) (key : κ) (value : V)

/-- What such a call returns. -/
inductive MapReply (V : Type)
  | isNew (flag : Bool)
  | value (v : V)
  deriving DecidableEq, Repr

namespace MapCall

def definition : MapCall κ V → Definition κ V
  | set scope key value => ⟨key, scope, value⟩
  | getOrSet scope key value => ⟨key, scope, value⟩

def run [LinearOrder κ] (map : ScopedMap κ V) :
    MapCall κ V → ScopedMap κ V × Except Failure (MapReply V)
  | set scope key value =>
    let (map', result) := map.set scope key value
    (map', result.map MapReply.isNew)
  | getOrSet scope key value =>
    let (map', result) := map.getOrSet scope key value
    (map', result.map MapReply.value)

/-- The reply to a call for a definition whose scope has a value already, or has none. -/
def reply (nullval : V) (known : Option V) : MapCall κ V → MapReply V
  | set _ _ _ => .isNew known.isNone
  | getOrSet _ _ _ => .value (known.getD nullval)

end MapCall

/-- A run of calls with the state after them and what each of them returned or threw. -/
def ScopedMap.runCalls [LinearOrder κ] (map : ScopedMap κ V) :
    List (MapCall κ V) → ScopedMap κ V × List (Except Failure (MapReply V))
  | [] => (map, [])
  | call :: calls =>
    let (map', result) := call.run map
    let (map'', results) := ScopedMap.runCalls map' calls
    (map'', result :: results)

/-- The definition made by a `ScopedInstance.set` call. -/
def setDefinition (call : Scope × V) : Definition Unit V := ⟨(), call.1, call.2⟩

/-- A run of `ScopedInstance.set` calls. -/
def ScopedInstance.runSets (inst : ScopedInstance V) :
    List (Scope × V) → ScopedInstance V × List (Except Failure Unit)
  | [] => (inst, [])
  | (scope, value) :: calls =>
    let (inst', result) := inst.set scope value
    let (inst'', results) := ScopedInstance.runSets inst' calls
    (inst'', result :: results)

/-- Non-empty scopes that are, for each key, pairwise nested or disjoint. -/
def WellScoped (defs : List (Definition κ V)) : Prop :=
  (∀ d ∈ defs, d.scope.start < d.scope.stop) ∧
    ∀ c ∈ defs, ∀ d ∈ defs, c.key = d.key → ¬ c.scope.Overlaps d.scope

instance [DecidableEq κ] (defs : List (Definition κ V)) : Decidable (WellScoped defs) :=
  inferInstanceAs (Decidable (_ ∧ _))

theorem WellScoped.laminar {defs : List (Definition κ V)} (wellScoped : WellScoped defs)
    (key : κ) : Laminar (scopesOf defs key) where
  nonEmpty := by
    rintro s ⟨d, hd, -, rfl⟩
    exact wellScoped.1 d hd
  noOverlap := by
    rintro s ⟨c, hc, hckey, rfl⟩ t ⟨d, hd, hdkey, rfl⟩
    exact wellScoped.2 c hc d hd (hckey.trans hdkey.symm)

theorem WellScoped.append {defs : List (Definition κ V)} (wellScoped : WellScoped defs)
    {new : Definition κ V} (laminar : Laminar (insert new.scope (scopesOf defs new.key))) :
    WellScoped (defs ++ [new]) := by
  refine ⟨fun d hd => ?_, fun c hc d hd hkey => ?_⟩
  · rcases List.mem_append.mp hd with hd | hd
    · exact wellScoped.1 d hd
    · exact List.mem_singleton.mp hd ▸ laminar.nonEmpty _ (Set.mem_insert _ _)
  · have member {b : Definition κ V} (hb : b ∈ defs ++ [new]) (h : b.key = new.key) :
        b.scope ∈ insert new.scope (scopesOf defs new.key) := by
      rcases List.mem_append.mp hb with hb | hb
      · exact Set.mem_insert_of_mem _ (h ▸ mem_scopesOf hb)
      · exact List.mem_singleton.mp hb ▸ Set.mem_insert _ _
    by_cases h : c.key = new.key
    · exact laminar.noOverlap _ (member hc h) _ (member hd (hkey.symm.trans h))
    · have old {b : Definition κ V} (hb : b ∈ defs ++ [new]) (hn : b.key ≠ new.key) :
          b ∈ defs := (List.mem_append.mp hb).resolve_right fun hb =>
            hn (List.mem_singleton.mp hb ▸ rfl)
      exact wellScoped.2 c (old hc h) d (old hd fun h' => h (hkey.trans h')) hkey

def FirstOf (defs : List (Definition κ V)) (d : Definition κ V) : Prop :=
  ∃ before after, defs = before ++ d :: after ∧ ∀ c ∈ before, ¬ c.Same d

def LastOf (defs : List (Definition κ V)) (d : Definition κ V) : Prop :=
  ∃ before after, defs = before ++ d :: after ∧ ∀ c ∈ after, ¬ c.Same d

theorem firstOf_append {defs : List (Definition κ V)} {new d : Definition κ V} :
    FirstOf (defs ++ [new]) d ↔ FirstOf defs d ∨ d = new ∧ ∀ c ∈ defs, ¬ c.Same new := by
  constructor
  · rintro ⟨before, after, heq, hbefore⟩
    rcases List.eq_nil_or_concat' after with rfl | ⟨after', last, rfl⟩
    · obtain ⟨rfl, h⟩ := List.append_inj' heq rfl
      obtain rfl := (List.singleton_inj.mp h)
      exact Or.inr ⟨rfl, hbefore⟩
    · rw [← List.cons_append, ← List.append_assoc] at heq
      obtain ⟨rfl, -⟩ := List.append_inj' heq rfl
      exact Or.inl ⟨before, after', rfl, hbefore⟩
  · rintro (⟨before, after, rfl, hbefore⟩ | ⟨rfl, hfirst⟩)
    · exact ⟨before, after ++ [new], by simp, hbefore⟩
    · exact ⟨defs, [], rfl, hfirst⟩

theorem lastOf_append {defs : List (Definition κ V)} {new d : Definition κ V} :
    LastOf (defs ++ [new]) d ↔ d = new ∨ LastOf defs d ∧ ¬ new.Same d := by
  constructor
  · rintro ⟨before, after, heq, hafter⟩
    rcases List.eq_nil_or_concat' after with rfl | ⟨after', last, rfl⟩
    · obtain ⟨-, h⟩ := List.append_inj' heq rfl
      exact Or.inl (List.singleton_inj.mp h).symm
    · rw [← List.cons_append, ← List.append_assoc] at heq
      obtain ⟨rfl, h⟩ := List.append_inj' heq rfl
      obtain rfl := List.singleton_inj.mp h
      exact Or.inr ⟨⟨before, after', rfl, fun c hc => hafter c (by simp [hc])⟩,
        hafter new (by simp)⟩
  · rintro (rfl | ⟨⟨before, after, rfl, hafter⟩, hnew⟩)
    · exact ⟨defs, [], rfl, by simp⟩
    · refine ⟨before, after ++ [new], by simp, fun c hc => ?_⟩
      rcases List.mem_append.mp hc with hc | hc
      · exact hafter c hc
      · exact List.mem_singleton.mp hc ▸ hnew

section Define

variable [DecidableEq κ]

theorem known_isNone_iff {defs : List (Definition κ V)} {new : Definition κ V} :
    known defs new = none ↔ ∀ c ∈ defs, ¬ c.Same new := by
  simp [known]

theorem exists_firstOf {defs : List (Definition κ V)} {c : Definition κ V} (hc : c ∈ defs) :
    ∃ b, FirstOf defs b ∧ b.Same c := by
  induction defs with
  | nil => simp at hc
  | cons a defs ih =>
    by_cases ha : a.Same c
    · exact ⟨a, ⟨[], defs, rfl, by simp⟩, ha⟩
    · obtain ⟨b, ⟨before, after, heq, hbefore⟩, hb⟩ :=
        ih ((List.mem_cons.mp hc).resolve_left fun h => ha (h ▸ ⟨rfl, rfl⟩))
      refine ⟨b, ⟨a :: before, after, by simp [heq], ?_⟩, hb⟩
      rintro x hx
      rcases List.mem_cons.mp hx with rfl | hx
      · exact fun h => ha (h.trans hb)
      · exact hbefore x hx

theorem exists_lastOf {defs : List (Definition κ V)} {c : Definition κ V} (hc : c ∈ defs) :
    ∃ b, LastOf defs b ∧ b.Same c := by
  induction defs using List.reverseRecOn with
  | nil => simp at hc
  | append_singleton defs new ih =>
    by_cases hnew : new.Same c
    · exact ⟨new, lastOf_append.mpr (Or.inl rfl), hnew⟩
    · obtain ⟨b, last, same⟩ := ih ((List.mem_append.mp hc).resolve_right fun h =>
        hnew (List.mem_singleton.mp h ▸ ⟨rfl, rfl⟩))
      exact ⟨b, lastOf_append.mpr (Or.inr ⟨last, fun h => hnew (h.trans same)⟩), same⟩

private theorem known_iff_of_first {calls defs : List (Definition κ V)}
    (mem_iff : ∀ d, d ∈ defs ↔ FirstOf calls d) {new : Definition κ V} :
    known defs new = none ↔ ∀ c ∈ calls, ¬ c.Same new := by
  rw [known_isNone_iff]
  constructor
  · intro h c hc hsame
    obtain ⟨b, hb, hbc⟩ := exists_firstOf hc
    exact h b ((mem_iff b).mpr hb) (hbc.trans hsame)
  · intro h c hc
    obtain ⟨before, after, rfl, -⟩ := (mem_iff c).mp hc
    exact h c (by simp)

theorem mem_defined_first (calls : List (Definition κ V)) (d : Definition κ V) :
    d ∈ calls.foldl (define false) [] ↔ FirstOf calls d := by
  induction calls using List.reverseRecOn generalizing d with
  | nil => simp [FirstOf]
  | append_singleton calls new ih =>
    rw [List.foldl_append, firstOf_append, ← ih, ← known_iff_of_first ih]
    cases hknown : known (calls.foldl (define false) []) new with
    | none => simp [define, hknown]
    | some old => simp [define, hknown]

theorem known_defined_first (calls : List (Definition κ V)) (new : Definition κ V) :
    known (calls.foldl (define false) []) new = none ↔ ∀ c ∈ calls, ¬ c.Same new :=
  known_iff_of_first (mem_defined_first calls)

theorem mem_defined_last (calls : List (Definition κ V)) (d : Definition κ V) :
    d ∈ calls.foldl (define true) [] ↔ LastOf calls d := by
  induction calls using List.reverseRecOn generalizing d with
  | nil => simp [LastOf]
  | append_singleton calls new ih =>
    rw [List.foldl_append, lastOf_append, ← ih]
    generalize calls.foldl (define true) [] = defs
    simp only [List.foldl_cons, List.foldl_nil]
    cases hknown : known defs new with
    | none =>
      have hno := known_isNone_iff.mp hknown
      simp only [define, hknown, List.mem_append, List.mem_singleton]
      constructor
      · rintro (hd | rfl)
        · exact Or.inr ⟨hd, fun h => hno d hd h.symm⟩
        · exact Or.inl rfl
      · rintro (rfl | ⟨hd, -⟩)
        · exact Or.inr rfl
        · exact Or.inl hd
    | some old =>
      obtain ⟨c, hc, hsame, -⟩ := known_eq_some hknown
      simp only [define, hknown, if_true, List.mem_map]
      constructor
      · rintro ⟨b, hb, rfl⟩
        by_cases h : b.Same new
        · simp [h]
        · simp only [h, if_false]
          exact Or.inr ⟨hb, fun h' => h h'.symm⟩
      · rintro (rfl | ⟨hd, hno⟩)
        · exact ⟨c, hc, by simp [hsame]⟩
        · exact ⟨d, hd, by simp [show ¬ d.Same new from fun h => hno h.symm]⟩

omit [DecidableEq κ] in
theorem wellScoped_of_mem {defs defs' : List (Definition κ V)} (wellScoped : WellScoped defs)
    (sub : ∀ d ∈ defs', d ∈ defs) : WellScoped defs' :=
  ⟨fun d hd => wellScoped.1 d (sub d hd),
    fun c hc d hd => wellScoped.2 c (sub c hc) d (sub d hd)⟩

end Define

theorem laminar_insert {calls : List (Definition κ V)} {defs : List (Definition κ V)}
    (new : Definition κ V) (wellScoped : WellScoped (calls ++ [new]))
    (sub : ∀ d ∈ defs, d ∈ calls) : Laminar (insert new.scope (scopesOf defs new.key)) := by
  refine (wellScoped.laminar new.key).mono ?_
  rintro s (rfl | ⟨d, hd, hkey, rfl⟩)
  · exact mem_scopesOf (by simp)
  · exact ⟨d, List.mem_append_left _ (sub d hd), hkey, rfl⟩

/-- Every query answers with the innermost definition among the attached ones. -/
structure AnswersInnermost (attached : Definition κ V → Prop) (nullval : V)
    (get : Int → κ → Except Failure V) (getDef : Scope → κ → Except Failure V) : Prop where
  inner : ∀ step key,
    (∃ d, attached d ∧ d.key = key ∧ d.scope.containsStep step = true ∧
      (∀ c, attached c → c.key = key → c.scope.containsStep step = true → d.scope ≤ c.scope) ∧
      get step key = .ok d.value) ∨
    ((∀ c, attached c → c.key = key → ¬ c.scope.containsStep step = true) ∧
      get step key = .ok nullval)
  exactly : ∀ scope key,
    (∃ d, attached d ∧ d.key = key ∧ d.scope = scope ∧ getDef scope key = .ok d.value) ∨
    ((∀ c, attached c → c.key = key → c.scope ≠ scope) ∧ getDef scope key = .ok nullval)

theorem answersInnermost {K : Type} [LinearOrder K] [EndKey K κ] [DecidableEq κ]
    {defs : List (Definition κ V)} {table : ScopeTable K V} (represents : Represents defs table)
    (wellScoped : WellScoped defs) {nullval : V} (null : table.invtree.nullval = nullval) :
    AnswersInnermost (· ∈ defs) nullval (fun step key => table.innerValue key step)
      (fun scope key => table.valueOf key scope) where
  inner step key := by
    obtain ⟨l, covering, query, -⟩ := queries_covering represents (wellScoped.laminar key) step
    rw [null] at query
    cases l with
    | nil =>
      refine Or.inr ⟨fun c hc hkey hcover => ?_, query⟩
      simpa using (covering.mem_iff c).mpr ⟨hc, hkey, hcover⟩
    | cons d l =>
      obtain ⟨hd, hkey, hcover⟩ := (covering.mem_iff d).mp List.mem_cons_self
      refine Or.inl ⟨d, hd, hkey, hcover, fun c hc hckey hccover => ?_, query⟩
      rcases List.mem_cons.mp ((covering.mem_iff c).mpr ⟨hc, hckey, hccover⟩) with rfl | hc
      · exact le_rfl
      · exact ((List.pairwise_cons.mp covering.nested).1 c hc).le
  exactly scope key := by
    have query := valueOf_eq represents key scope
    rw [null] at query
    cases hknown : known defs ⟨key, scope, nullval⟩ with
    | none =>
      refine Or.inr ⟨fun c hc hkey hscope => ?_, by rw [query, hknown]; rfl⟩
      exact known_isNone_iff.mp hknown c hc ⟨hkey, hscope⟩
    | some old =>
      obtain ⟨d, hd, same, rfl⟩ := known_eq_some hknown
      exact Or.inl ⟨d, hd, same.1, same.2, by rw [query, hknown]; rfl⟩

section MapRuns

variable [LinearOrder κ]

theorem MapCall.run_eq (call : MapCall κ V) (map : ScopedMap κ V) {map' : ScopedMap κ V}
    {known : Option V}
    (insert : map.insertScope call.definition.key call.definition.scope call.definition.value false
      = (map', .ok known)) :
    call.run map = (map', .ok (call.reply map.invtree.nullval known)) := by
  cases call with
  | set scope key value =>
    simp only [definition] at insert
    simp [MapCall.run, ScopedMap.set, insert, MapCall.reply, Except.map]
  | getOrSet scope key value =>
    simp only [definition] at insert
    simp [MapCall.run, ScopedMap.getOrSet, insert, MapCall.reply, Except.map]

theorem runCalls_represents (calls done : List (MapCall κ V)) (map : ScopedMap κ V)
    (represents : Represents ((done.map MapCall.definition).foldl (define false) []) map)
    (wellScoped : WellScoped ((done ++ calls).map MapCall.definition)) :
    Represents (((done ++ calls).map MapCall.definition).foldl (define false) [])
      (map.runCalls calls).1 ∧
    (map.runCalls calls).1.invtree.nullval = map.invtree.nullval ∧
    (map.runCalls calls).2.length = calls.length ∧
    ∀ before call after, calls = before ++ call :: after →
      (map.runCalls calls).2[before.length]? = some (.ok (call.reply map.invtree.nullval
        (known (((done ++ before).map MapCall.definition).foldl (define false) [])
          call.definition))) := by
  induction calls generalizing done map with
  | nil =>
    refine ⟨by simpa [ScopedMap.runCalls] using represents, rfl, rfl, ?_⟩
    intro before call after h
    simp at h
  | cons call calls ih =>
    have wellScoped' : WellScoped ((done ++ [call] ++ calls).map MapCall.definition) := by
      simpa using wellScoped
    have sub : ∀ d ∈ (done.map MapCall.definition).foldl (define false) [],
        d ∈ done.map MapCall.definition := by
      intro d hd
      obtain ⟨before, after, heq, -⟩ := (mem_defined_first _ d).mp hd
      simp [heq]
    have laminar := laminar_insert call.definition
      (wellScoped_of_mem wellScoped (fun d hd => by
        simp only [List.map_append, List.map_cons, List.mem_append, List.mem_cons] at hd ⊢
        tauto)) sub
    obtain ⟨map', insert, represents', hnull⟩ := insertScope_define represents laminar false
    have run := call.run_eq map insert
    have represents'' : Represents
        (((done ++ [call]).map MapCall.definition).foldl (define false) []) map' := by
      simpa using represents'
    obtain ⟨final, null, len, replies⟩ := ih (done ++ [call]) map' represents'' wellScoped'
    refine ⟨by simpa [ScopedMap.runCalls, run] using final, ?_, ?_, ?_⟩
    · simpa [ScopedMap.runCalls, run] using null.trans hnull
    · simp [ScopedMap.runCalls, run, len]
    · intro before call' after heq
      cases before with
      | nil =>
        obtain ⟨rfl, rfl⟩ := List.cons.inj heq
        simp [ScopedMap.runCalls, run]
      | cons b before =>
        obtain ⟨rfl, heq'⟩ := List.cons.inj heq
        have := replies before call' after heq'
        rw [hnull] at this
        simpa [ScopedMap.runCalls, run] using this

theorem ScopedMap.getOrSet_define {defs : List (Definition κ V)} {map : ScopedMap κ V}
    (represents : Represents defs map) (new : Definition κ V)
    (laminar : Laminar (insert new.scope (scopesOf defs new.key))) :
    ∃ map', (new.scope ∉ scopesOf defs new.key ∧ Represents (defs ++ [new]) map' ∧
        map.getOrSet new.scope new.key new.value = (map', .ok map.invtree.nullval)) ∨
      ∃ d ∈ defs, d.Same new ∧ Represents defs map' ∧
        map.getOrSet new.scope new.key new.value = (map', .ok d.value) := by
  obtain ⟨map', inserted, represents', -⟩ := insertScope_define represents laminar false
  have call : map.getOrSet new.scope new.key new.value =
      (map', .ok ((known defs new).getD map.invtree.nullval)) := by
    simp only [ScopedMap.getOrSet, inserted, Except.map]
  refine ⟨map', ?_⟩
  cases hknown : known defs new with
  | none =>
    simp only [define, hknown] at represents'
    exact Or.inl ⟨known_eq_none.mp hknown, represents', by rw [call, hknown]; rfl⟩
  | some old =>
    obtain ⟨d, mem, same, rfl⟩ := known_eq_some hknown
    simp only [define, hknown] at represents'
    exact Or.inr ⟨d, mem, same, represents', by rw [call, hknown]; rfl⟩

end MapRuns

theorem runSets_represents (calls done : List (Scope × V)) (inst : ScopedInstance V)
    (represents : Represents
      ((done.map setDefinition).foldl (define true) []) inst)
    (wellScoped : WellScoped ((done ++ calls).map setDefinition)) :
    Represents (((done ++ calls).map setDefinition).foldl
      (define true) []) (inst.runSets calls).1 ∧
    (inst.runSets calls).1.invtree.nullval = inst.invtree.nullval ∧
    (inst.runSets calls).2 = calls.map fun _ => .ok () := by
  induction calls generalizing done inst with
  | nil => exact ⟨by simpa [ScopedInstance.runSets] using represents, rfl, rfl⟩
  | cons call calls ih =>
    obtain ⟨scope, value⟩ := call
    have wellScoped' : WellScoped ((done ++ [(scope, value)] ++ calls).map
        setDefinition) := by
      simpa using wellScoped
    have sub : ∀ d ∈ (done.map setDefinition).foldl
        (define true) [], d ∈ done.map setDefinition := by
      intro d hd
      obtain ⟨before, after, heq, -⟩ := (mem_defined_last _ d).mp hd
      simp [heq]
    have laminar := laminar_insert (setDefinition (scope, value))
      (wellScoped_of_mem wellScoped (fun d hd => by
        simp only [List.map_append, List.map_cons, List.mem_append, List.mem_cons] at hd ⊢
        tauto)) sub
    obtain ⟨inst', insert, represents', hnull⟩ := insertScope_define represents laminar true
    have run : inst.set scope value = (inst', .ok ()) := by
      simp only [setDefinition] at insert
      simp only [ScopedInstance.set, insert]
      rfl
    have represents'' : Represents (((done ++ [(scope, value)]).map
        setDefinition).foldl (define true) []) inst' := by
      simpa using represents'
    obtain ⟨final, null, results⟩ := ih (done ++ [(scope, value)]) inst' represents'' wellScoped'
    refine ⟨by simpa [ScopedInstance.runSets, run] using final, ?_, ?_⟩
    · simpa [ScopedInstance.runSets, run] using null.trans hnull
    · simp [ScopedInstance.runSets, run, results]

/-- The definitions around a step, from the innermost to the outermost, are enumerated. -/
def EnumeratesCovering (attached : Definition κ V → Prop)
    (range : Int → κ → Except Failure (List (Scope × V))) : Prop :=
  ∀ step key, ∃ l : List (Definition κ V), range step key = .ok (l.map fun d => (d.scope, d.value)) ∧
    l.Pairwise (fun c d => c.scope < d.scope) ∧
    ∀ d, d ∈ l ↔ attached d ∧ d.key = key ∧ d.scope.containsStep step = true

/-- Each call replies with the first value that was defined before for its key and scope. -/
def RepliesFirst (calls : List (MapCall κ V)) (nullval : V)
    (results : List (Except Failure (MapReply V))) : Prop :=
  ∀ before call after, calls = before ++ call :: after → ∃ known,
    results[before.length]? = some (.ok (call.reply nullval known)) ∧
    (known = none ↔ ∀ c ∈ before, ¬ c.definition.Same call.definition) ∧
    ∀ old, known = some old →
      ∃ d, FirstOf (before.map MapCall.definition) d ∧ d.Same call.definition ∧ d.value = old

/-- Scoped lookup finds the innermost definition, whatever order the definitions were made in. -/
theorem lookup_innermost [LinearOrder κ] (nullval : V) (calls : List (MapCall κ V))
    (wellScoped : WellScoped (calls.map MapCall.definition)) (sets : List (Scope × V))
    (wellScopedSets : WellScoped (sets.map setDefinition)) :
    (let final := (ScopedMap.empty nullval).runCalls calls;
      AnswersInnermost (FirstOf (calls.map MapCall.definition)) nullval
        (fun step key => final.1.get step key) (fun scope key => final.1.getDef scope key) ∧
      EnumeratesCovering (FirstOf (calls.map MapCall.definition))
        (fun step key => final.1.match_range step key) ∧
      RepliesFirst calls nullval final.2) ∧
    (let final := (ScopedInstance.empty nullval).runSets sets;
      AnswersInnermost (LastOf (sets.map setDefinition)) nullval
        (fun step _ => final.1.get step) (fun scope _ => final.1.getThis scope) ∧
      final.2 = sets.map fun _ => .ok ()) := by
  constructor
  · obtain ⟨represents, null, -, replies⟩ := runCalls_represents calls []
      (ScopeTable.empty nullval) (represents_empty nullval) (by simpa using wellScoped)
    simp only [List.nil_append] at represents replies
    have first (cs : List (MapCall κ V)) :
        (· ∈ (cs.map MapCall.definition).foldl (define false) []) =
          FirstOf (cs.map MapCall.definition) :=
      funext fun d => propext (mem_defined_first _ d)
    have wellScoped' : WellScoped ((calls.map MapCall.definition).foldl (define false) []) :=
      wellScoped_of_mem wellScoped fun d hd => by
        obtain ⟨before, after, heq, -⟩ := (mem_defined_first _ d).mp hd
        simp [heq]
    refine ⟨first calls ▸ answersInnermost represents wellScoped' null, fun step key => ?_,
      fun before call after heq => ?_⟩
    · obtain ⟨l, covering, -, range⟩ :=
        queries_covering represents (wellScoped'.laminar key) step
      exact ⟨l, range, covering.nested, fun d => by
        rw [covering.mem_iff, mem_defined_first]⟩
    · refine ⟨_, replies before call after heq, ?_, fun old hold => ?_⟩
      · rw [known_defined_first]
        simp
      · obtain ⟨d, hd, same, rfl⟩ := known_eq_some hold
        exact ⟨d, (mem_defined_first _ d).mp hd, same, rfl⟩
  · obtain ⟨represents, null, results⟩ := runSets_represents sets []
      (ScopeTable.empty nullval) (represents_empty nullval) (by simpa using wellScopedSets)
    simp only [List.nil_append] at represents
    have last : (· ∈ (sets.map setDefinition).foldl (define true) []) =
        LastOf (sets.map setDefinition) :=
      funext fun d => propext (mem_defined_last _ d)
    have wellScoped' : WellScoped ((sets.map setDefinition).foldl (define true) []) :=
      wellScoped_of_mem wellScopedSets fun d hd => by
        obtain ⟨before, after, heq, -⟩ := (mem_defined_last _ d).mp hd
        simp [heq]
    exact ⟨last ▸ answersInnermost represents wellScoped' null, results⟩

theorem lookup_innermost_nested :
    let calls : List (MapCall Int Nat) :=
      [.set ⟨2, 5⟩ 7 1, .getOrSet ⟨0, 10⟩ 7 2, .set ⟨2, 5⟩ 7 3, .set ⟨4, 6⟩ 8 4]
    let final := (ScopedMap.empty 0).runCalls calls
    AnswersInnermost (FirstOf (calls.map MapCall.definition)) 0
      (fun step key => final.1.get step key) (fun scope key => final.1.getDef scope key) ∧
    final.1.get 3 7 = .ok 1 ∧ final.1.get 5 7 = .ok 2 ∧ final.1.get 3 8 = .ok 0 :=
  ⟨(lookup_innermost 0 [.set ⟨2, 5⟩ 7 1, .getOrSet ⟨0, 10⟩ 7 2, .set ⟨2, 5⟩ 7 3, .set ⟨4, 6⟩ 8 4]
    (by decide) [(⟨1, 4⟩, 5)] (by decide)).1.1, by decide, by decide, by decide⟩

end Mewa
