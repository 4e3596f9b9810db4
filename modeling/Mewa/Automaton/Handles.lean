/- Module: Mewa/Automaton/Handles
   digest: The handles of the sets that follow mean the same while unions are added. -/

import Mewa.Automaton.FirstSets
import Mewa.Automaton.Merge

set_option autoImplicit false
set_option relaxedAutoImplicit false

namespace Mewa

open Mewa.Lib

/-- The end of the input and the terminals on right sides. -/
def terminalsOf (prodlist : List ProductionDef) : Set Int :=
  {t | t = 0 ∨ ∃ prod ∈ prodlist, ∃ nd ∈ prod.right, nd.type = .Terminal ∧ nd.index = t}

namespace FollowMap

def SetAt (fm : FollowMap) (handle : Nat) (elems : FlatSet Int) : Prop :=
  fm.followMap.inv[handle]? = some elems

def UnionOf (fm : FollowMap) (handle1 handle2 handle : Nat) : Prop :=
  ∃ s1 s2, fm.SetAt handle1 s1 ∧ fm.SetAt handle2 s2 ∧ fm.SetAt handle (s1.insertAll s2.elems)

/-- The sets are different ones, the first one is that of the end of the input, and their elements
    are terminals. The unions calculated so far are right. -/
structure Sound (T : Set Int) (fm : FollowMap) : Prop where
  startidx : fm.followMap.startidx = 0
  nodup : fm.followMap.inv.Nodup
  zero : fm.SetAt 0 (SortedSet.ofList [0])
  within : ∀ elems ∈ fm.followMap.inv, ∀ t ∈ elems, t ∈ T
  nodes : ∀ key entry, fm.nodeMap.find key = some entry → ∃ elems, fm.SetAt entry.handle elems
  joins : ∀ h1 h2 h, fm.joinMap.find (toLex (h1, h2)) = some h →
    h < Limits.MaxTerminal ∧ fm.UnionOf h1 h2 h

structure Le (fm fm' : FollowMap) : Prop where
  nodes : fm'.nodeMap = fm.nodeMap
  sets : fm.followMap.inv <+: fm'.followMap.inv

variable {T : Set Int} {fm fm' fm'' : FollowMap} {h h1 h2 : Nat} {s s1 s2 : FlatSet Int}

namespace Le

theorem refl (fm : FollowMap) : fm.Le fm := ⟨rfl, List.prefix_refl _⟩

theorem trans (first : fm.Le fm') (second : fm'.Le fm'') : fm.Le fm'' :=
  ⟨second.nodes.trans first.nodes, first.sets.trans second.sets⟩

theorem setAt (le : fm.Le fm') (here : fm.SetAt h s) : fm'.SetAt h s := by
  obtain ⟨more, same⟩ := le.sets
  obtain ⟨bound, -⟩ := List.getElem?_eq_some_iff.mp here
  unfold SetAt
  rw [← same, List.getElem?_append_left bound]
  exact here

theorem unionOf (le : fm.Le fm') (union : fm.UnionOf h1 h2 h) : fm'.UnionOf h1 h2 h := by
  obtain ⟨s1, s2, first, second, both⟩ := union
  exact ⟨s1, s2, le.setAt first, le.setAt second, le.setAt both⟩

end Le

theorem SetAt.unique (first : fm.SetAt h s1) (second : fm.SetAt h s2) : s1 = s2 :=
  Option.some.inj (first.symm.trans second)

namespace Sound

theorem handle_unique (sound : fm.Sound T) (first : fm.SetAt h1 s) (second : fm.SetAt h2 s) :
    h1 = h2 := by
  obtain ⟨bound1, at1⟩ := List.getElem?_eq_some_iff.mp first
  obtain ⟨bound2, at2⟩ := List.getElem?_eq_some_iff.mp second
  exact (sound.nodup.getElem_inj_iff).mp (at1.trans at2.symm)

theorem content_iff (sound : fm.Sound T) : fm.content h = .ok s ↔ fm.SetAt h s := by
  unfold content IntSetHandleMap.content SetAt
  rw [sound.startidx, Nat.sub_zero]
  cases fm.followMap.inv[h]? with
  | none => simp
  | some elems => simp

theorem mem_terminals (sound : fm.Sound T) (here : fm.SetAt h s) {t : Int} (mem : t ∈ s) : t ∈ T :=
  sound.within s (List.mem_of_getElem? here) t mem

end Sound

end FollowMap

/-! New sets. -/

namespace IntSetHandleMap

variable {map map' : IntSetHandleMap} {elem : FlatSet Int} {h : Nat}

structure Interns (map : IntSetHandleMap) (elem : FlatSet Int) (map' : IntSetHandleMap) (h : Nat) :
    Prop where
  startidx : map'.startidx = map.startidx
  nodup : map'.inv.Nodup
  sets : map.inv <+: map'.inv
  found : map'.inv[h]? = some elem
  added : ∀ s ∈ map'.inv, s = elem ∨ s ∈ map.inv
  length : map'.inv.length ≤ map.inv.length + 1

theorem get_interns (startidx : map.startidx = 0) (nodup : map.inv.Nodup) (elem : FlatSet Int) :
    map.Interns elem (map.get elem).1 (map.get elem).2 := by
  unfold get
  cases found : map.inv.findIdx? (· = elem) with
  | some i =>
    obtain ⟨bound, same, -⟩ := List.findIdx?_eq_some_iff_getElem.mp found
    have here : map.inv[i]? = some elem := by
      rw [List.getElem?_eq_getElem bound]
      exact congrArg some (of_decide_eq_true same)
    refine ⟨rfl, nodup, List.prefix_refl _, ?_, fun s mem => Or.inr mem, Nat.le_succ _⟩
    show map.inv[i + map.startidx]? = some elem
    rw [startidx, Nat.add_zero]
    exact here
  | none =>
    have missing := List.findIdx?_eq_none_iff.mp found
    have fresh : elem ∉ map.inv := fun mem => by simpa using missing elem mem
    refine ⟨rfl, ?_, List.prefix_append _ _, ?_, ?_, ?_⟩
    · show (map.inv ++ [elem]).Nodup
      rw [List.nodup_append]
      refine ⟨nodup, by simp, fun s mem s' mem' => ?_⟩
      rw [List.mem_singleton.mp mem']
      exact fun same => fresh (same ▸ mem)
    · show (map.inv ++ [elem])[map.inv.length + map.startidx]? = some elem
      rw [startidx, Nat.add_zero, List.getElem?_concat_length]
    · intro s mem
      rcases List.mem_append.mp mem with old | new
      · exact Or.inr old
      · exact Or.inl (List.mem_singleton.mp new)
    · show (map.inv ++ [elem]).length ≤ _
      rw [List.length_append, List.length_singleton]

end IntSetHandleMap

namespace FollowMap

variable {T : Set Int} {fm fm' : FollowMap} {h h1 h2 : Nat} {s s1 s2 : FlatSet Int}

def tooManySets : Failure := .thrown ⟨.ComplexityLR1FollowSetsInGrammarDef, "", 0⟩

/-- The effect of a union. -/
structure JoinedTo (T : Set Int) (fm : FollowMap) (h1 h2 : Nat) (fm' : FollowMap) (h : Nat) :
    Prop where
  sound : fm'.Sound T
  le : fm.Le fm'
  union : fm'.UnionOf h1 h2 h
  room : h < Limits.MaxTerminal
  few : fm'.followMap.inv.length < Limits.MaxTerminal

theorem joinedTo_of_join (sound : fm.Sound T) (joined : fm.join h1 h2 = .ok (fm', h)) :
    JoinedTo T fm h1 h2 fm' h := by
  unfold join at joined
  split at joined
  · simp at joined
  · rename_i small
    have small : fm.followMap.inv.length + fm.followMap.startidx < 2 ^ 10 - 1 := not_le.mp small
    rw [sound.startidx] at small
    split at joined
    · rename_i handle known
      obtain ⟨rfl, rfl⟩ : fm = fm' ∧ handle = h := by simpa using joined
      obtain ⟨room, union⟩ := sound.joins _ _ _ known
      refine ⟨sound, .refl fm, union, room, ?_⟩
      show _ < 2 ^ 10
      omega
    · obtain ⟨⟨followMap, handle⟩, union, joined⟩ := bind_eq_ok.mp joined
      unfold IntSetHandleMap.join at union
      obtain ⟨s1, first, union⟩ := bind_eq_ok.mp union
      obtain ⟨s2, second, union⟩ := bind_eq_ok.mp union
      have first : fm.SetAt h1 s1 := sound.content_iff.mp first
      have second : fm.SetAt h2 s2 := sound.content_iff.mp second
      have interns : fm.followMap.Interns (s1.insertAll s2.elems) followMap handle := by
        have interned := IntSetHandleMap.get_interns sound.startidx sound.nodup
          (s1.insertAll s2.elems)
        rw [Except.ok.inj union] at interned
        exact interned
      obtain ⟨rfl, rfl⟩ : _ = fm' ∧ handle = h := by simpa using joined
      have le : fm.Le ⟨fm.nodeMap, fm.joinMap.set (toLex (h1, h2)) handle, followMap⟩ :=
        ⟨rfl, interns.sets⟩
      have union : FollowMap.UnionOf ⟨fm.nodeMap, fm.joinMap.set (toLex (h1, h2)) handle, followMap⟩
          h1 h2 handle := ⟨s1, s2, le.setAt first, le.setAt second, interns.found⟩
      have few := interns.length
      have bound := (List.getElem?_eq_some_iff.mp interns.found).1
      have room : handle < Limits.MaxTerminal := by
        show handle < 2 ^ 10
        omega
      refine ⟨⟨interns.startidx.trans sound.startidx, interns.nodup, le.setAt sound.zero, ?_, ?_,
        ?_⟩, le, union, room, ?_⟩
      · intro elems mem t in_set
        rcases interns.added elems mem with rfl | old
        · rcases SortedSet.mem_insertAll.mp in_set with new | old
          · exact sound.mem_terminals second new
          · exact sound.mem_terminals first old
        · exact sound.within elems old t in_set
      · intro key entry found
        obtain ⟨elems, here⟩ := sound.nodes key entry found
        exact ⟨elems, le.setAt here⟩
      · intro k1 k2 k found
        rw [SortedMap.find_set] at found
        split at found
        · rename_i same
          obtain ⟨rfl, rfl⟩ := Prod.mk.inj (toLex.injective same)
          obtain rfl := Option.some.inj found
          exact ⟨room, union⟩
        · obtain ⟨fits, old⟩ := sound.joins k1 k2 k found
          exact ⟨fits, le.unionOf old⟩
      · show followMap.inv.length < 2 ^ 10
        omega

theorem join_fails (sound : fm.Sound T) (first : fm.SetAt h1 s1) (second : fm.SetAt h2 s2) :
    FailsWith (· = tooManySets) (fm.join h1 h2) := by
  unfold join
  split
  · exact FailsWith.error_iff.mpr rfl
  · split
    · exact .ok _
    · have union : fm.followMap.join h1 h2 = .ok (fm.followMap.get (s1.insertAll s2.elems)) := by
        unfold IntSetHandleMap.join
        have content1 : fm.followMap.content h1 = .ok s1 := sound.content_iff.mpr first
        have content2 : fm.followMap.content h2 = .ok s2 := sound.content_iff.mpr second
        rw [content1, ok_bind, content2, ok_bind]
      rw [union, ok_bind]
      exact .ok _

theorem UnionOf.setAt (union : fm.UnionOf h1 h2 h) (first : fm.SetAt h1 s1)
    (second : fm.SetAt h2 s2) : fm.SetAt h (s1.insertAll s2.elems) := by
  obtain ⟨s1', s2', first', second', both⟩ := union
  rw [first.unique first', second.unique second']
  exact both

theorem join_yields (sound : fm.Sound T) (first : fm.SetAt h1 s1) (second : fm.SetAt h2 s2) :
    Yields (· = tooManySets) (fun rt => JoinedTo T fm h1 h2 rt.1 rt.2) (fm.join h1 h2) :=
  ⟨join_fails sound first second, fun _ joined => joinedTo_of_join sound joined⟩

end FollowMap

/-! The sets that a build starts with. -/

/-- The entry for an element of a production has the FIRST set of what comes behind it. -/
def FollowMap.EntryAt (prodlist : List ProductionDef) (firstMap : FirstSetMap)
    (nullable : FlatSet Int) (fm : FollowMap) (key : FollowKey) (entry : FollowHandle) : Prop :=
  ∃ prod index, prodlist[key.prodindex]? = some prod ∧
    prod.nodeAt key.prodpos = some ⟨.NonTerminal, index⟩ ∧
    fm.SetAt entry.handle
      (getLr1FirstSet firstMap nullable (prod.right.drop (key.prodpos + 1)) SortedSet.empty).1 ∧
    entry.inherit =
      (getLr1FirstSet firstMap nullable (prod.right.drop (key.prodpos + 1)) SortedSet.empty).2

/-- The map with entries for the nonterminals at some positions of the productions. -/
structure FollowMap.Filled (prodlist : List ProductionDef) (firstMap : FirstSetMap)
    (nullable : FlatSet Int) (K : FollowKey → Prop) (fm : FollowMap) : Prop where
  sound : fm.Sound (terminalsOf prodlist)
  unjoined : fm.joinMap = SortedMap.empty
  found : ∀ key entry, fm.nodeMap.find key = some entry →
    K key ∧ fm.EntryAt prodlist firstMap nullable key entry
  complete : ∀ key prod index, K key → prodlist[key.prodindex]? = some prod →
    prod.nodeAt key.prodpos = some ⟨.NonTerminal, index⟩ →
    ∃ entry, fm.nodeMap.find key = some entry

section Init

variable {prodlist : List ProductionDef} {nullable : FlatSet Int} {firstMap : FirstSetMap}

theorem mem_terminalsOf_of_collected {A t : Int}
    (collected : Collected (rulesOf prodlist) A t) : t ∈ terminalsOf prodlist := by
  obtain ⟨e, front, rfl | ⟨rfl, -⟩⟩ := collected
  · obtain ⟨r, ⟨prod, mem, rfl⟩, mem_t⟩ := front.terminal_mem (by simp)
    obtain ⟨nd, mem_nd, symbol⟩ := List.mem_map.mp mem_t
    unfold symbolOf at symbol
    split at symbol
    · rename_i type
      exact Or.inr ⟨prod, mem, nd, mem_nd, type, Symbol.terminal.inj symbol⟩
    · simp at symbol
  · exact Or.inl rfl

variable (defined : EveryDefined prodlist) (firsts : FirstsFound prodlist nullable firstMap)
include defined firsts

theorem getLr1FirstSet_within {prod : ProductionDef} (mem : prod ∈ prodlist) (pos : Nat) {t : Int}
    (here : t ∈ (getLr1FirstSet firstMap nullable (prod.right.drop pos) SortedSet.empty).1) :
    t ∈ terminalsOf prodlist := by
  have sub : ∀ nd ∈ prod.right.drop pos, nd ∈ prod.right := fun nd mem => List.mem_of_mem_drop mem
  rcases (mem_getLr1FirstSet (fun nd mem_nd => defined.resolved prod mem nd (sub nd mem_nd))
    (fun nd mem_nd type => (firsts.keys _).mpr (defined.known mem nd (sub nd mem_nd) type))).mp
    here with none | ⟨x, leading, ⟨type, rfl⟩ | ⟨type, has⟩⟩
  · exact absurd none (by simp)
  · exact Or.inr ⟨prod, mem, x, sub x leading.mem, type, rfl⟩
  · exact mem_terminalsOf_of_collected ((firsts.content _ _).mp has)

theorem initNode_yields {K : FollowKey → Prop} {fm : FollowMap} {prodindex prodpos : Nat}
    {prod : ProductionDef} (filled : fm.Filled prodlist firstMap nullable K)
    (at_index : prodlist[prodindex]? = some prod) (fresh : ¬ K ⟨prodindex, prodpos⟩) :
    Yields (fun _ => False)
      (fun fm' => fm'.Filled prodlist firstMap nullable
          (fun key => K key ∨ key = ⟨prodindex, prodpos⟩) ∧
        fm'.followMap.inv.length ≤ fm.followMap.inv.length + 1)
      (FollowMap.initNode firstMap nullable prodindex prod fm prodpos) := by
  unfold FollowMap.initNode
  split
  · rename_i index node
    simp only
    generalize first_eq : (getLr1FirstSet firstMap nullable (prod.right.drop (prodpos + 1))
      SortedSet.empty).1 = first
    have interns := IntSetHandleMap.get_interns filled.sound.startidx filled.sound.nodup first
    generalize (fm.followMap.get first).1 = followMap at interns ⊢
    generalize (fm.followMap.get first).2 = handle at interns ⊢
    have missing : fm.nodeMap.find ⟨prodindex, prodpos⟩ = none := by
      cases known : fm.nodeMap.find ⟨prodindex, prodpos⟩ with
      | none => rfl
      | some entry => exact absurd (filled.found _ _ known).1 fresh
    rw [SortedMap.insertNew_of_none missing]
    apply Yields.ok_iff.mpr
    have later {h : Nat} {elems : FlatSet Int} (here : fm.SetAt h elems) :
        followMap.inv[h]? = some elems := by
      obtain ⟨more, same⟩ := interns.sets
      obtain ⟨bound, -⟩ := List.getElem?_eq_some_iff.mp here
      rw [← same, List.getElem?_append_left bound]
      exact here
    refine ⟨⟨⟨interns.startidx.trans filled.sound.startidx, interns.nodup,
      later filled.sound.zero, ?_, ?_, ?_⟩, filled.unjoined, ?_, ?_⟩, interns.length⟩
    · intro elems mem t in_set
      rcases interns.added elems mem with rfl | old
      · rw [← first_eq] at in_set
        exact getLr1FirstSet_within defined firsts (List.mem_of_getElem? at_index) _ in_set
      · exact filled.sound.within elems old t in_set
    · intro key entry found
      rw [SortedMap.find_set] at found
      split at found
      · obtain rfl := Option.some.inj found
        exact ⟨first, interns.found⟩
      · obtain ⟨elems, here⟩ := filled.sound.nodes key entry found
        exact ⟨elems, later here⟩
    · intro h1 h2 h found
      have none_joined : fm.joinMap.find (toLex (h1, h2)) = some h := found
      rw [filled.unjoined] at none_joined
      simp at none_joined
    · intro key entry found
      rw [SortedMap.find_set] at found
      split at found
      · rename_i same
        subst same
        obtain rfl := Option.some.inj found
        refine ⟨Or.inr rfl, prod, index, at_index, node, ?_, rfl⟩
        show followMap.inv[handle]? = _
        rw [first_eq]
        exact interns.found
      · obtain ⟨here, prod', index', at_index', node', set, inherit⟩ := filled.found key entry found
        exact ⟨Or.inl here, prod', index', at_index', node', later set, inherit⟩
    · intro key prod' index' here at_index' node'
      rw [SortedMap.find_set]
      split
      · exact ⟨_, rfl⟩
      · rename_i other
        rcases here with old | rfl
        · exact filled.complete key prod' index' old at_index' node'
        · exact absurd rfl other
  · rename_i other
    apply Yields.ok_iff.mpr
    refine ⟨⟨filled.sound, filled.unjoined, fun key entry found => ?_, ?_⟩, Nat.le_succ _⟩
    · obtain ⟨here, entry_at⟩ := filled.found key entry found
      exact ⟨Or.inl here, entry_at⟩
    · intro key prod' index here at_index' node
      rcases here with old | rfl
      · exact filled.complete key prod' index old at_index' node
      · obtain rfl := Option.some.inj (at_index.symm.trans at_index')
        exact absurd node (other index)

omit defined firsts in
theorem range_prefix {past : List Nat} {k n : Nat} (begins : past ++ [k] <+: List.range n) :
    k = past.length := by
  obtain ⟨rest, same⟩ := begins
  have here : (past ++ [k] ++ rest)[past.length]? = some k := by
    rw [List.append_assoc, List.getElem?_append_right (Nat.le_refl _), Nat.sub_self]
    rfl
  rw [same] at here
  obtain ⟨bound, eq⟩ := List.getElem?_eq_some_iff.mp here
  rw [List.getElem_range] at eq
  exact eq.symm

omit defined firsts in
theorem zipIdx_prefix {past : List (ProductionDef × Nat)} {x : ProductionDef × Nat}
    (begins : past ++ [x] <+: prodlist.zipIdx) :
    x.2 = past.length ∧ prodlist[x.2]? = some x.1 := by
  obtain ⟨rest, same⟩ := begins
  have here : (past ++ [x] ++ rest)[past.length]? = some x := by
    rw [List.append_assoc, List.getElem?_append_right (Nat.le_refl _), Nat.sub_self]
    rfl
  rw [same, List.getElem?_zipIdx] at here
  obtain ⟨prod, at_index, rfl⟩ := Option.map_eq_some_iff.mp here
  exact ⟨Nat.zero_add _, by rw [Nat.zero_add]; exact at_index⟩

def keysBefore (prodindex prodpos : Nat) (key : FollowKey) : Prop :=
  key.prodindex < prodindex ∨ key.prodindex = prodindex ∧ key.prodpos < prodpos

omit defined firsts in
theorem keysBefore_succ {p k : Nat} {key : FollowKey} :
    keysBefore p (k + 1) key ↔ keysBefore p k key ∨ key = ⟨p, k⟩ := by
  obtain ⟨p', k'⟩ := key
  unfold keysBefore
  simp only [FollowKey.mk.injEq]
  omega

omit defined firsts in
theorem FollowMap.Filled.congr {K L : FollowKey → Prop} {fm : FollowMap}
    (filled : fm.Filled prodlist firstMap nullable K)
    (same : ∀ key prod index, prodlist[key.prodindex]? = some prod →
      prod.nodeAt key.prodpos = some ⟨.NonTerminal, index⟩ → (K key ↔ L key)) :
    fm.Filled prodlist firstMap nullable L where
  sound := filled.sound
  unjoined := filled.unjoined
  found key entry found := by
    obtain ⟨here, prod, index, at_index, node, rest⟩ := filled.found key entry found
    exact ⟨(same key prod index at_index node).mp here, prod, index, at_index, node, rest⟩
  complete key prod index here at_index node :=
    filled.complete key prod index ((same key prod index at_index node).mpr here) at_index node

theorem initProduction_yields {fm : FollowMap} {prodindex : Nat} {prod : ProductionDef}
    (filled : fm.Filled prodlist firstMap nullable (keysBefore prodindex 0))
    (at_index : prodlist[prodindex]? = some prod) :
    Yields (fun _ => False)
      (fun fm' => fm'.Filled prodlist firstMap nullable (keysBefore (prodindex + 1) 0) ∧
        fm'.followMap.inv.length ≤ fm.followMap.inv.length + prod.right.length)
      (FollowMap.initProduction firstMap nullable fm (prod, prodindex)) := by
  unfold FollowMap.initProduction
  have folded : Yields (fun _ => False)
      (fun fm' : FollowMap =>
        fm'.Filled prodlist firstMap nullable (keysBefore prodindex prod.right.length) ∧
        fm'.followMap.inv.length ≤ fm.followMap.inv.length + prod.right.length)
      ((List.range prod.right.length).foldlM
        (FollowMap.initNode firstMap nullable prodindex prod) fm) := by
    have along := Yields.foldlM (P := fun _ : Failure => False)
      (fun (past : List Nat) (fm' : FollowMap) =>
        fm'.Filled prodlist firstMap nullable (keysBefore prodindex past.length) ∧
        fm'.followMap.inv.length ≤ fm.followMap.inv.length + past.length)
      (f := FollowMap.initNode firstMap nullable prodindex prod)
      (l := List.range prod.right.length) (s := fm) ?_ ⟨filled, Nat.le_refl _⟩
    · rwa [List.length_range] at along
    · intro past k fm' begins ⟨inv, few⟩
      obtain rfl := range_prefix begins
      have fresh : ¬ keysBefore prodindex past.length ⟨prodindex, past.length⟩ := by
        unfold keysBefore
        simp
      apply (initNode_yields defined firsts inv at_index fresh).mono
      intro fm'' _ ⟨next, longer⟩
      rw [List.length_append, List.length_singleton]
      exact ⟨next.congr fun key _ _ _ _ => keysBefore_succ.symm, by omega⟩
  apply folded.mono
  intro fm' _ ⟨all, few⟩
  refine ⟨all.congr fun key prod' index at_index' node => ?_, few⟩
  unfold keysBefore
  -- the positions of the production are those that have an element
  have inside : key.prodindex = prodindex → key.prodpos < prod.right.length := by
    intro same
    rw [same, at_index] at at_index'
    obtain rfl := Option.some.inj at_index'
    obtain ⟨nd, at_pos, -⟩ := Option.map_eq_some_iff.mp node
    exact (List.getElem?_eq_some_iff.mp at_pos).1
  omega

theorem init_yields (short : ∀ prod ∈ prodlist, prod.right.length < Limits.MaxProductionLength) :
    Yields (fun _ => False)
      (fun fm => fm.Filled prodlist firstMap nullable (fun _ => True) ∧
        fm.followMap.inv.length ≤ 1 + 16 * prodlist.length)
      (FollowMap.init prodlist firstMap nullable) := by
  unfold FollowMap.init
  have along := Yields.foldlM (P := fun _ : Failure => False)
    (fun (past : List (ProductionDef × Nat)) (fm : FollowMap) =>
      fm.Filled prodlist firstMap nullable (keysBefore past.length 0) ∧
      fm.followMap.inv.length ≤ 1 + 16 * past.length)
    (f := FollowMap.initProduction firstMap nullable) (l := prodlist.zipIdx)
    (s := ⟨SortedMap.empty, SortedMap.empty,
      ((⟨[], 0⟩ : IntSetHandleMap).get (SortedSet.ofList [0])).1⟩) ?_ ?_
  · apply along.mono
    intro fm _ ⟨filled, few⟩
    rw [List.length_zipIdx] at filled few
    refine ⟨filled.congr fun key prod index at_index _ => ?_, few⟩
    have bound := (List.getElem?_eq_some_iff.mp at_index).1
    exact ⟨fun _ => trivial, fun _ => Or.inl bound⟩
  · intro past x fm begins ⟨inv, few⟩
    obtain ⟨index, at_index⟩ := zipIdx_prefix begins
    obtain ⟨prod, prodindex⟩ := x
    obtain rfl : prodindex = past.length := index
    apply (initProduction_yields defined firsts inv at_index).mono
    intro fm' _ ⟨next, longer⟩
    have room : prod.right.length < 16 := short prod (List.mem_of_getElem? at_index)
    have longer : fm'.followMap.inv.length ≤ fm.followMap.inv.length + prod.right.length := longer
    rw [List.length_append, List.length_singleton]
    exact ⟨next, by omega⟩
  · have zero : terminalsOf prodlist 0 := Or.inl rfl
    have first : ((⟨[], 0⟩ : IntSetHandleMap).get (SortedSet.ofList [0])).1.inv =
        [SortedSet.ofList [0]] := rfl
    refine ⟨⟨⟨rfl, ?_, ?_, ?_, by simp, by simp⟩, rfl, by simp, ?_⟩, ?_⟩
    · rw [first]
      exact List.nodup_singleton _
    · show ((⟨[], 0⟩ : IntSetHandleMap).get (SortedSet.ofList [0])).1.inv[0]? = _
      rw [first]
      rfl
    · intro elems mem t in_set
      rw [first, List.mem_singleton] at mem
      rw [mem, SortedSet.mem_ofList, List.mem_singleton] at in_set
      rw [in_set]
      exact zero
    · intro key prod index before
      unfold keysBefore at before
      simp at before
    · show ((⟨[], 0⟩ : IntSetHandleMap).get (SortedSet.ofList [0])).1.inv.length ≤ _
      rw [first]
      show 1 ≤ 1 + 16 * 0
      omega

end Init

end Mewa
