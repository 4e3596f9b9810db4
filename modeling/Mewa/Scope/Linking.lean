/- Module: Mewa/Scope/Linking
   digest: Definitions as an abstract list, and the links of a tree while one of them is inserted. -/

import Mathlib.Data.Set.Insert
import Mathlib.Tactic.Common
import Mewa.Lib.Forest
import Mewa.Lib.Result
import Mewa.Scope.Chain

set_option autoImplicit false
set_option relaxedAutoImplicit false

namespace Mewa

open Mewa.Lib.Forest

/-- The scopes are neither nested nor disjoint. -/
def Scope.Overlaps (s t : Scope) : Prop :=
  ¬ s ≤ t ∧ ¬ t ≤ s ∧ s.start < t.stop ∧ t.start < s.stop

instance (s t : Scope) : Decidable (s.Overlaps t) :=
  inferInstanceAs (Decidable (¬ s ≤ t ∧ ¬ t ≤ s ∧ s.start < t.stop ∧ t.start < s.stop))

structure Laminar (S : Set Scope) : Prop where
  nonEmpty : ∀ s ∈ S, s.start < s.stop
  noOverlap : ∀ s ∈ S, ∀ t ∈ S, ¬ s.Overlaps t

theorem Laminar.forest {S : Set Scope} (laminar : Laminar S) : IsForest S := by
  intro a ha b hb c hc hab hac
  have hne := laminar.nonEmpty a ha
  have hbc := laminar.noOverlap b hb c hc
  obtain ⟨hab1, hab2⟩ := Scope.le_iff.mp hab
  obtain ⟨hac1, hac2⟩ := Scope.le_iff.mp hac
  by_contra h
  obtain ⟨h1, h2⟩ := not_or.mp h
  exact hbc ⟨h1, h2, by omega, by omega⟩

theorem Laminar.mono {S T : Set Scope} (laminar : Laminar T) (sub : S ⊆ T) : Laminar S :=
  ⟨fun s hs => laminar.nonEmpty s (sub hs),
    fun s hs t ht => laminar.noOverlap s (sub hs) t (sub ht)⟩

structure Definition (κ V : Type) where
  key : κ
  scope : Scope
  value : V
  deriving DecidableEq, Repr

variable {κ V : Type}

def scopesOf (defs : List (Definition κ V)) (key : κ) : Set Scope :=
  {s | ∃ d ∈ defs, d.key = key ∧ d.scope = s}

theorem mem_scopesOf {defs : List (Definition κ V)} {d : Definition κ V} (h : d ∈ defs) :
    d.scope ∈ scopesOf defs d.key := ⟨d, h, rfl, rfl⟩

theorem scopesOf_append_self (defs : List (Definition κ V)) (d : Definition κ V) :
    scopesOf (defs ++ [d]) d.key = insert d.scope (scopesOf defs d.key) := by
  ext s
  simp only [scopesOf, Set.mem_ofPred_eq, List.mem_append, List.mem_singleton, Set.mem_insert_iff]
  constructor
  · rintro ⟨c, hc | rfl, hkey, rfl⟩
    · exact Or.inr ⟨c, hc, hkey, rfl⟩
    · exact Or.inl rfl
  · rintro (rfl | ⟨c, hc, hkey, rfl⟩)
    · exact ⟨d, Or.inr rfl, rfl, rfl⟩
    · exact ⟨c, Or.inl hc, hkey, rfl⟩

theorem scopesOf_append_ne (defs : List (Definition κ V)) {d : Definition κ V} {key : κ}
    (h : key ≠ d.key) : scopesOf (defs ++ [d]) key = scopesOf defs key := by
  ext s
  simp only [scopesOf, Set.mem_ofPred_eq, List.mem_append, List.mem_singleton]
  constructor
  · rintro ⟨c, hc | rfl, hkey, rfl⟩
    · exact ⟨c, hc, hkey, rfl⟩
    · exact absurd hkey.symm h
  · rintro ⟨c, hc, hkey, rfl⟩
    exact ⟨c, Or.inl hc, hkey, rfl⟩

theorem scopesOf_append_sub (defs : List (Definition κ V)) (d : Definition κ V) (key : κ) :
    scopesOf defs key ⊆ scopesOf (defs ++ [d]) key := by
  rintro s ⟨c, hc, hkey, rfl⟩
  exact ⟨c, List.mem_append_left _ hc, hkey, rfl⟩

/-- A link as an index, and the scope it leads to. -/
inductive LinkOf (defs : List (Definition κ V)) (key : κ) : Option Nat → Option Scope → Prop
  | root : LinkOf defs key none none
  | up {j : Nat} {d : Definition κ V} :
      defs[j]? = some d → d.key = key → LinkOf defs key (some j) (some d.scope)

def Placed (defs : List (Definition κ V)) (S : Set Scope) (d : Definition κ V)
    (prev : Option Nat) : Prop :=
  ∃ p, LinkOf defs d.key prev p ∧ IsParent S d.scope p

/-- The tree holds the scopes and the values of the definitions in their order. -/
def Content (ar : List (ScopedUpValue V)) (defs : List (Definition κ V)) : Prop :=
  ar.map (fun uv => (uv.scope, uv.value)) = defs.map fun d => (d.scope, d.value)

theorem Content.length_eq {ar : List (ScopedUpValue V)} {defs : List (Definition κ V)}
    (content : Content ar defs) : ar.length = defs.length := by
  simpa using congrArg List.length content

theorem Content.definition {ar : List (ScopedUpValue V)} {defs : List (Definition κ V)}
    (content : Content ar defs) {i : Nat} {uv : ScopedUpValue V} (h : ar[i]? = some uv) :
    ∃ d, defs[i]? = some d ∧ d.scope = uv.scope ∧ d.value = uv.value := by
  have hi := congrArg (fun l => l[i]?) content
  simp only [List.getElem?_map, h, Option.map_some] at hi
  obtain ⟨d, hd, heq⟩ := Option.map_eq_some_iff.mp hi.symm
  exact ⟨d, hd, congrArg Prod.fst heq, congrArg Prod.snd heq⟩

theorem Content.node {ar : List (ScopedUpValue V)} {defs : List (Definition κ V)}
    (content : Content ar defs) {i : Nat} {d : Definition κ V} (h : defs[i]? = some d) :
    ∃ uv, ar[i]? = some uv ∧ uv.scope = d.scope ∧ uv.value = d.value := by
  have hi := congrArg (fun l => l[i]?) content
  simp only [List.getElem?_map, h, Option.map_some] at hi
  obtain ⟨uv, huv, heq⟩ := Option.map_eq_some_iff.mp hi
  exact ⟨uv, huv, congrArg Prod.fst heq, congrArg Prod.snd heq⟩

/-- Each link leads to the parent among some set that has all scopes of a base set. -/
structure Linked (base : κ → Set Scope) (defs : List (Definition κ V))
    (ar : List (ScopedUpValue V)) : Prop where
  content : Content ar defs
  placed : ∀ (i : Nat) uv d, ar[i]? = some uv → defs[i]? = some d →
    ∃ S, base d.key ⊆ S ∧ Placed defs S d uv.prev

namespace Linked

variable {base : κ → Set Scope} {defs : List (Definition κ V)} {ar : List (ScopedUpValue V)}

theorem ascending (linked : Linked base defs ar) : Ascending ar := by
  intro i uv j node hprev
  obtain ⟨d, hd, hscope, -⟩ := linked.content.definition node
  obtain ⟨S, -, p, link, parent⟩ := linked.placed i uv d node hd
  rw [hprev] at link
  cases link with
  | up hj _ =>
    obtain ⟨w, hw, hwscope, -⟩ := linked.content.node hj
    exact ⟨w, hw, by rw [hwscope, ← hscope]; exact parent.lt⟩

theorem exists_chain (linked : Linked base defs ar) {i : Nat} {d : Definition κ V}
    (h : defs[i]? = some d) :
    ∃ l, Chain ar (some i) l ∧ Increasing l ∧ l.length ≤ ar.length := by
  obtain ⟨uv, node, -⟩ := linked.content.node h
  obtain ⟨l, chain⟩ := linked.ascending.exists_chain (List.getElem?_eq_some_iff.mp node).1
  exact ⟨l, chain, linked.ascending.increasing chain, linked.ascending.length_le chain⟩

theorem definition_of_chain (linked : Linked base defs ar) (key : κ) {index : Option Nat}
    {l : List (ChainNode V)} (chain : Chain ar index l)
    (start : ∀ i, index = some i → ∃ d, defs[i]? = some d ∧ d.key = key) :
    ∀ x ∈ l, ∃ d, defs[x.1]? = some d ∧ d.key = key ∧ d.scope = x.2.scope ∧
      d.value = x.2.value := by
  induction chain with
  | nil => simp
  | @cons ai uv l node _ ih =>
    obtain ⟨d, hd, hkey⟩ := start ai rfl
    obtain ⟨d', hd', hscope, hvalue⟩ := linked.content.definition node
    obtain rfl := Option.some.inj (hd.symm.trans hd')
    intro x hx
    rcases List.mem_cons.mp hx with rfl | hx
    · exact ⟨d, hd, hkey, hscope, hvalue⟩
    · refine ih (fun j hj => ?_) x hx
      obtain ⟨S, -, p, link, -⟩ := linked.placed ai uv d node hd
      rw [hj] at link
      cases link with
      | up hj' hkey' => exact ⟨_, hj', hkey'.trans hkey⟩

theorem mem_chain (linked : Linked base defs ar) {key : κ} {index : Option Nat}
    {l : List (ChainNode V)} (chain : Chain ar index l) {s : Scope} (hs : s ∈ base key)
    (start : ∃ i d, index = some i ∧ defs[i]? = some d ∧ d.key = key ∧ d.scope ≤ s) :
    ∃ x ∈ l, x.2.scope = s := by
  induction chain with
  | nil =>
    obtain ⟨i, d, h, -⟩ := start
    simp at h
  | @cons ai uv l node _ ih =>
    obtain ⟨i, d, hi, hd, hkey, hle⟩ := start
    obtain rfl := Option.some.inj hi
    obtain ⟨d', hd', hscope, -⟩ := linked.content.definition node
    obtain rfl := Option.some.inj (hd.symm.trans hd')
    rcases hle.eq_or_lt with heq | hlt
    · exact ⟨_, List.mem_cons_self, hscope.symm.trans heq⟩
    · obtain ⟨S, sub, p, link, parent⟩ := linked.placed ai uv d node hd
      rw [hkey] at sub
      cases p with
      | none => exact absurd hlt (parent s (sub hs))
      | some p =>
        have hps := parent.le_of_lt (sub hs) hlt
        cases hprev : uv.prev with
        | none => rw [hprev] at link; cases link
        | some j =>
          rw [hprev] at link
          cases link with
          | up hj hjkey =>
            obtain ⟨x, hx, hxs⟩ := ih ⟨j, _, hprev, hj, hjkey.trans hkey, hps⟩
            exact ⟨x, List.mem_cons_of_mem _ hx, hxs⟩

end Linked

/-- A tree while the links of the definitions around the new last one are set: each link is that
    of the old or that of the new set of scopes. -/
structure Linking (defs : List (Definition κ V)) (new : Definition κ V)
    (ar : List (ScopedUpValue V)) : Prop where
  content : Content ar (defs ++ [new])
  placed : ∀ (i : Nat) uv d, ar[i]? = some uv → (defs ++ [new])[i]? = some d →
    Placed (defs ++ [new]) (scopesOf (defs ++ [new]) d.key) d uv.prev ∨
    Placed (defs ++ [new]) (scopesOf defs d.key) d uv.prev

def Settled (defs : List (Definition κ V)) (new : Definition κ V) (ar : List (ScopedUpValue V))
    (i : Nat) : Prop :=
  ∀ uv d, ar[i]? = some uv → (defs ++ [new])[i]? = some d →
    Placed (defs ++ [new]) (scopesOf (defs ++ [new]) d.key) d uv.prev

namespace Linking

variable {defs : List (Definition κ V)} {new : Definition κ V} {ar : List (ScopedUpValue V)}

theorem linked (linking : Linking defs new ar) : Linked (scopesOf defs) (defs ++ [new]) ar where
  content := linking.content
  placed i uv d node hd := by
    rcases linking.placed i uv d node hd with h | h
    · exact ⟨_, scopesOf_append_sub defs new d.key, h⟩
    · exact ⟨_, subset_rfl, h⟩

theorem settled_or (linking : Linking defs new ar) {i : Nat} {uv : ScopedUpValue V}
    {d : Definition κ V} (node : ar[i]? = some uv) (hd : (defs ++ [new])[i]? = some d) :
    Settled defs new ar i ∨ (d.key = new.key ∧ d.scope < new.scope ∧
      ∃ p, LinkOf (defs ++ [new]) d.key uv.prev p ∧ IsParent (scopesOf defs d.key) d.scope p ∧
        ∀ q, p = some q → ¬ q ≤ new.scope) := by
  have settled (h : Placed (defs ++ [new]) (scopesOf (defs ++ [new]) d.key) d uv.prev) :
      Settled defs new ar i := by
    intro uv' d' node' hd'
    obtain rfl := Option.some.inj (node.symm.trans node')
    obtain rfl := Option.some.inj (hd.symm.trans hd')
    exact h
  rcases linking.placed i uv d node hd with h | ⟨p, link, parent⟩
  · exact Or.inl (settled h)
  · by_cases hkey : d.key = new.key
    · by_cases stays : d.scope < new.scope → ∃ q, p = some q ∧ q ≤ new.scope
      · refine Or.inl (settled ⟨p, link, ?_⟩)
        rw [hkey, scopesOf_append_self, ← hkey]
        exact parent.insert_stays stays
      · obtain ⟨hlt, hout⟩ := Classical.not_imp.mp stays
        exact Or.inr ⟨hkey, hlt, p, link, parent, fun q hq hle => hout ⟨q, hq, hle⟩⟩
    · refine Or.inl (settled ⟨p, link, ?_⟩)
      rw [scopesOf_append_ne defs hkey]
      exact parent

end Linking

private theorem getElem?_setPrev {tree : ScopedUpValueInvTree V} {ai : Nat} {prev : Option Nat}
    {i : Nat} {uv : ScopedUpValue V} (h : (tree.setPrev ai prev).ar[i]? = some uv) :
    (i = ai ∧ ∃ w, tree.ar[i]? = some w ∧ uv = { w with prev := prev }) ∨
      i ≠ ai ∧ tree.ar[i]? = some uv := by
  simp only [ScopedUpValueInvTree.setPrev, List.getElem?_modify] at h
  obtain ⟨w, hw, rfl⟩ := Option.map_eq_some_iff.mp h
  by_cases hi : ai = i
  · exact Or.inl ⟨hi.symm, w, hw, by simp [hi]⟩
  · exact Or.inr ⟨fun h' => hi h'.symm, by simpa [hi] using hw⟩

theorem content_setPrev {defs : List (Definition κ V)} {tree : ScopedUpValueInvTree V}
    (content : Content tree.ar defs) (ai : Nat) (prev : Option Nat) :
    Content (tree.setPrev ai prev).ar defs := by
  refine Eq.trans ?_ content
  apply List.ext_getElem?
  intro i
  simp only [ScopedUpValueInvTree.setPrev, List.getElem?_map, List.getElem?_modify]
  cases tree.ar[i]? with
  | none => rfl
  | some uv => by_cases hi : ai = i <;> simp [hi]

namespace Linking

variable {defs : List (Definition κ V)} {new : Definition κ V}
  {tree : ScopedUpValueInvTree V}

theorem settled_of_next (linking : Linking defs new tree.ar) {x y : ChainNode V}
    {l : List (ChainNode V)} (node : tree.ar[x.1]? = some x.2)
    (rest : Chain tree.ar x.2.prev (y :: l)) (hy : y.2.scope ≤ new.scope) :
    Settled defs new tree.ar x.1 := by
  obtain ⟨d, hd, -⟩ := linking.content.definition node
  rcases linking.settled_or node hd with h | ⟨-, -, p, link, -, out⟩
  · exact h
  · obtain ⟨d', hd', hscope, -⟩ :=
      linking.content.definition (rest.node_of_mem List.mem_cons_self)
    generalize x.2.prev = prev at rest link
    cases rest with
    | cons _ _ =>
      cases link with
      | up hj _ =>
        obtain rfl := Option.some.inj (hj.symm.trans hd')
        exact absurd (hscope ▸ hy) (out _ rfl)

end Linking

def Distinct (defs : List (Definition κ V)) : Prop :=
  ∀ (i j : Nat) c d, defs[i]? = some c → defs[j]? = some d → c.key = d.key →
    c.scope = d.scope → i = j

namespace Linking

variable {defs : List (Definition κ V)} {new : Definition κ V}
  {tree : ScopedUpValueInvTree V}

theorem mem_old {i : Nat} {d : Definition κ V} (h : (defs ++ [new])[i]? = some d)
    (below : d.scope < new.scope) : d ∈ defs := by
  rcases List.mem_append.mp (List.mem_of_getElem? h) with h | h
  · exact h
  · exact absurd (List.mem_singleton.mp h ▸ below) (lt_irrefl _)

theorem inner_settled (linking : Linking defs new tree.ar) (distinct : Distinct (defs ++ [new]))
    {h : Nat} {dh : Definition κ V} (hdh : (defs ++ [new])[h]? = some dh)
    (hkey : dh.key = new.key) {inner rest : List (ChainNode V)} {z : ChainNode V}
    (chain : Chain tree.ar (some h) (inner ++ z :: rest))
    (hinner : ∀ x ∈ inner, x.2.scope < new.scope) (hz : z.2.scope < new.scope)
    (hrest : ∀ x ∈ rest, ¬ x.2.scope < new.scope) {i : Nat} {d : Definition κ V}
    (hd : (defs ++ [new])[i]? = some d) (hdkey : d.key = new.key) (above : dh.scope ≤ d.scope)
    (below : d.scope < new.scope) : Settled defs new tree.ar i ∨ i = z.1 := by
  have hs : d.scope ∈ scopesOf defs new.key := hdkey ▸ mem_scopesOf (mem_old hd below)
  obtain ⟨x, hx, hxs⟩ := linking.linked.mem_chain chain hs ⟨h, dh, rfl, hdh, hkey, above⟩
  obtain ⟨c, hc, hckey, hcscope, -⟩ := linking.linked.definition_of_chain new.key chain
    (fun i hi => by obtain rfl := Option.some.inj hi; exact ⟨dh, hdh, hkey⟩) x hx
  have hxi : x.1 = i := distinct x.1 i c d hc hd (hckey.trans hdkey.symm) (hcscope.trans hxs)
  rcases List.mem_append.mp hx with hx | hx
  · obtain ⟨a, b, rfl⟩ := List.append_of_mem hx
    have node := chain.node_of_mem (x := x) (by simp)
    rw [List.append_assoc, List.cons_append] at chain
    have tail := chain.suffix
    refine Or.inl (hxi ▸ ?_)
    cases b with
    | nil => exact linking.settled_of_next node tail hz.le
    | cons y b => exact linking.settled_of_next node tail (hinner y (by simp)).le
  · rcases List.mem_cons.mp hx with rfl | hx
    · exact Or.inr hxi.symm
    · exact absurd (hxs ▸ below) (hrest x hx)

theorem relink (linking : Linking defs new tree.ar)
    (forest : IsForest (scopesOf (defs ++ [new]) new.key)) {index : Option Nat}
    {inner rest : List (ChainNode V)} {z : ChainNode V}
    (chain : Chain tree.ar index (inner ++ z :: rest)) {dz : Definition κ V}
    (hdz : (defs ++ [new])[z.1]? = some dz) (hkey : dz.key = new.key)
    (hz : z.2.scope < new.scope) (next : ∀ y ∈ rest.head?, ¬ y.2.scope ≤ new.scope) :
    Linking defs new (tree.setPrev z.1 (some defs.length)).ar ∧
      (∀ i, Settled defs new tree.ar i →
        Settled defs new (tree.setPrev z.1 (some defs.length)).ar i) ∧
      Settled defs new (tree.setPrev z.1 (some defs.length)).ar z.1 := by
  have node : tree.ar[z.1]? = some z.2 := chain.node_of_mem (by simp)
  have tail : Chain tree.ar z.2.prev rest := chain.suffix
  obtain ⟨dz', hdz', hscope, -⟩ := linking.content.definition node
  obtain rfl := Option.some.inj (hdz.symm.trans hdz')
  have below : dz.scope < new.scope := hscope ▸ hz
  have outside : ∀ p, LinkOf (defs ++ [new]) dz.key z.2.prev (some p) → ¬ p ≤ new.scope := by
    intro p link
    generalize z.2.prev = prev at tail link
    cases link with
    | up hj _ =>
      cases tail with
      | cons ynode _ =>
        obtain ⟨dy, hdy, hyscope, -⟩ := linking.content.definition ynode
        obtain rfl := Option.some.inj (hj.symm.trans hdy)
        exact hyscope ▸ next _ rfl
  have parent : IsParent (scopesOf (defs ++ [new]) dz.key) dz.scope (some new.scope) := by
    rw [hkey, scopesOf_append_self]
    rcases linking.settled_or node hdz with h | ⟨-, -, p, link, parent, out⟩
    · obtain ⟨p, link, parent⟩ := h z.2 dz node hdz
      rw [hkey, scopesOf_append_self] at parent
      have member := Set.mem_insert new.scope (scopesOf defs new.key)
      cases p with
      | none => exact absurd below (parent _ member)
      | some p => exact absurd (parent.le_of_lt member below) (outside p link)
    · rw [hkey] at parent
      exact parent.insert_becomes (scopesOf_append_self defs new ▸ forest)
        (hkey ▸ mem_scopesOf (mem_old hdz below)) below out
  have last : (defs ++ [new])[defs.length]? = some new := by simp
  have placed : Placed (defs ++ [new]) (scopesOf (defs ++ [new]) dz.key) dz
      (some defs.length) := ⟨_, LinkOf.up last hkey.symm, parent⟩
  refine ⟨⟨content_setPrev linking.content _ _, fun i uv d hi hd => ?_⟩,
    fun i settled uv d hi hd => ?_, fun uv d hi hd => ?_⟩
  · rcases getElem?_setPrev hi with ⟨rfl, w, -, rfl⟩ | ⟨-, hi⟩
    · obtain rfl := Option.some.inj (hdz.symm.trans hd)
      exact Or.inl placed
    · exact linking.placed i uv d hi hd
  · rcases getElem?_setPrev hi with ⟨rfl, w, -, rfl⟩ | ⟨-, hi⟩
    · obtain rfl := Option.some.inj (hdz.symm.trans hd)
      exact placed
    · exact settled uv d hi hd
  · rcases getElem?_setPrev hi with ⟨-, w, -, rfl⟩ | ⟨hne, -⟩
    · obtain rfl := Option.some.inj (hdz.symm.trans hd)
      exact placed
    · exact absurd rfl hne

theorem linkLeftNeighbours_settles (linking : Linking defs new tree.ar)
    (forest : IsForest (scopesOf (defs ++ [new]) new.key)) (distinct : Distinct (defs ++ [new]))
    {h : Nat} {dh : Definition κ V} (hdh : (defs ++ [new])[h]? = some dh)
    (hkey : dh.key = new.key) (below : dh.scope < new.scope) :
    ∃ tree', tree.linkLeftNeighbours (some h) new.scope defs.length = .ok tree' ∧
      tree'.nullval = tree.nullval ∧ Linking defs new tree'.ar ∧
      (∀ i, Settled defs new tree.ar i → Settled defs new tree'.ar i) ∧
      ∀ (i : Nat) d, (defs ++ [new])[i]? = some d → d.key = new.key → dh.scope ≤ d.scope →
        d.scope < new.scope → Settled defs new tree'.ar i := by
  obtain ⟨l, chain, increasing, bounded⟩ := linking.linked.exists_chain hdh
  obtain ⟨inside, rest, rfl, hinside, hrest⟩ := increasing.split_inside new.scope
  have keys := linking.linked.definition_of_chain new.key chain
    (fun i hi => by obtain rfl := Option.some.inj hi; exact ⟨dh, hdh, hkey⟩)
  have nonEmpty : inside ≠ [] := by
    rintro rfl
    obtain ⟨uv, node, hscope, -⟩ := linking.content.node hdh
    cases chain with
    | cons node' _ =>
      obtain rfl := Option.some.inj (node.symm.trans node')
      exact hrest _ List.mem_cons_self (hscope ▸ below)
  obtain ⟨inner, z, rfl⟩ := (List.eq_nil_or_concat' inside).resolve_left nonEmpty
  have hz : z.2.scope < new.scope := hinside z (by simp)
  have hinner : ∀ x ∈ inner, x.2.scope < new.scope := fun x hx => hinside x (by simp [hx])
  have call := ScopedUpValueInvTree.leftNeighbour_eq chain bounded hinside hrest
  rw [List.append_assoc, List.singleton_append] at chain
  obtain ⟨dz, hdz, hzkey, -⟩ := keys z (by simp)
  have inner_or := fun (i : Nat) d => linking.inner_settled distinct hdh hkey chain hinner hz
    hrest (i := i) (d := d)
  by_cases next : ∀ y ∈ rest.head?, ¬ y.2.scope ≤ new.scope
  · obtain ⟨linking', keeps, settles⟩ := linking.relink forest chain hdz hzkey hz next
    refine ⟨tree.setPrev z.1 (some defs.length), ?_, rfl, linking', keeps,
      fun i d hd hdkey above inside => ?_⟩
    · have found : tree.leftNeighbour (some h) new.scope = .ok (some z.1) := by
        rw [call]
        cases rest with
        | nil => simp [ScopedUpValueInvTree.leftOf]
        | cons y rest =>
          have hne : ¬ y.2.scope = new.scope := fun heq => next y rfl heq.le
          simp [ScopedUpValueInvTree.leftOf, hne]
      simp [ScopedUpValueInvTree.linkLeftNeighbours, found]
    · rcases inner_or i d hd hdkey above inside with h | rfl
      · exact keeps i h
      · exact settles
  · obtain ⟨y, rest, rfl, hle⟩ : ∃ y rest', rest = y :: rest' ∧ y.2.scope ≤ new.scope := by
      cases rest with
      | nil => simp at next
      | cons y rest => exact ⟨y, rest, rfl, by simpa using next⟩
    have heq : y.2.scope = new.scope :=
      hle.eq_or_lt.resolve_right (hrest y List.mem_cons_self)
    refine ⟨tree, ?_, rfl, linking, fun i h => h, fun i d hd hdkey above inside => ?_⟩
    · have found : tree.leftNeighbour (some h) new.scope = .ok none := by
        rw [call]
        simp [ScopedUpValueInvTree.leftOf, heq]
      simp [ScopedUpValueInvTree.linkLeftNeighbours, found]
    · rcases inner_or i d hd hdkey above inside with h | rfl
      · exact h
      · exact linking.settled_of_next (chain.node_of_mem (by simp)) chain.suffix hle

end Linking

end Mewa
