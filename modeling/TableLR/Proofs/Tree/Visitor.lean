import Mathlib.Data.List.Flatten
import TableLR.Tree.Visitor
import TableLR.Proofs.Tree.Refusals

/-! The calls of a visit. Whatever a visitor answers and however its answers hang on its state, the
calls that it gets are nested like the nodes they are about, and they are about the nodes to which
all slots are shown and all answers lead, each once. -/
namespace TableLR

inductive Call where
  | enter (node : NodeId) (production : Production) (answer : Descent)
  | leave (node : NodeId) (production : Production)
  | token (node : NodeId) (token : Token)
deriving DecidableEq

namespace Call

def node : Call → NodeId
  | enter n _ _ | leave n _ | token n _ => n

def ClosedBy (x y : Call) : Prop :=
  ∃ n production answer, x = .enter n production answer ∧ y = .leave n production

inductive Balanced : List Call → Prop
  | nil : Balanced []
  | token {n : NodeId} {token : Token} {rest : List Call} (h : Balanced rest) :
    Balanced (.token n token :: rest)
  | node {n : NodeId} {production : Production} {answer : Descent} {inner rest : List Call}
      (hinner : Balanced inner) (h : Balanced rest) :
    Balanced (.enter n production answer :: (inner ++ .leave n production :: rest))

theorem Balanced.append {calls rest : List Call} (h : Balanced calls) (hrest : Balanced rest) :
    Balanced (calls ++ rest) := by
  induction h with
  | nil => exact hrest
  | token _ ih => exact .token ih
  | node hinner _ _ ih =>
    rw [List.cons_append, List.append_assoc, List.cons_append]
    exact .node hinner ih

theorem Balanced.flatMap {places : List Nat} {stretch : Nat → List Call}
    (h : ∀ i ∈ places, Balanced (stretch i)) : Balanced (places.flatMap stretch) := by
  induction places with
  | nil => exact .nil
  | cons i places ih =>
    rw [List.flatMap_cons]
    exact (h i List.mem_cons_self).append (ih fun j hj => h j (List.mem_cons_of_mem i hj))

end Call

variable {g : Grammar} {σ : Type}

def Visitor.logged (v : Visitor g σ) : Visitor g (σ × List Call) where
  enter t n production s :=
    let (answer, next) := v.enter t n production s.1
    (answer, next, s.2 ++ [.enter n production answer])
  leave t n production s := (v.leave t n production s.1, s.2 ++ [.leave n production])
  token t n token s := (v.token t n token s.1, s.2 ++ [.token n token])

def Visitor.call? (v : Visitor g σ) (t : Tree g) (s : σ) : Call → Option σ
  | .enter n production answer =>
    if (v.enter t n production s).1 = answer then some (v.enter t n production s).2 else none
  | .leave n production => some (v.leave t n production s)
  | .token n token => some (v.token t n token s)

theorem Production.shows_eq_true {production : Production} {i : Nat} :
    production.shows i = true ↔
      ∃ rule, production.rules[i]? = some rule ∧ rule.shown = true ∧ rule.dropped = false := by
  simp [shows, Option.any_eq_true]

namespace Tree

variable {t : Tree g} {n m c p : NodeId} {production : Production} {slots : List (Option NodeId)}
  {calls : List Call} {call : Call}

/-- The calls of a visit to `n`: a token is shown; a node is entered, then come its shown children
slot by slot if the visitor wants to see them, and then the node is left. -/
inductive Reports (t : Tree g) : NodeId → List Call → Prop
  | token {n : NodeId} {token : Token} (h : t.token? n = some token) :
    Reports t n [.token n token]
  | past {n : NodeId} {production : Production} {slots : List (Option NodeId)}
      (h : t.interior n = .ok (production, slots)) :
    Reports t n [.enter n production .past, .leave n production]
  | into {n : NodeId} {production : Production} {slots : List (Option NodeId)}
      {stretch : Nat → List Call} (h : t.interior n = .ok (production, slots))
      (opened : ∀ i c, slots[i]? = some (some c) → production.shows i = true →
        Reports t c (stretch i))
      (closed : ∀ i, stretch i ≠ [] →
        production.shows i = true ∧ ∃ c, slots[i]? = some (some c)) :
    Reports t n (.enter n production .into ::
      ((List.range slots.length).flatMap stretch ++ [.leave n production]))

inductive Reported (t : Tree g) (calls : List Call) (m : NodeId) : Prop
  | token {token : Token} (h : t.token? m = some token) (hcall : .token m token ∈ calls)
  | node {production : Production} {slots : List (Option NodeId)} {answer : Descent}
      (h : t.interior m = .ok (production, slots))
      (hcalls : [Call.enter m production answer, .leave m production].Sublist calls)

def GoesInto (t : Tree g) (calls : List Call) (p c : NodeId) : Prop :=
  (∃ production i rule, t.InSlot p production i c ∧
    production.rules[i]? = some rule ∧ rule.shown = true ∧ rule.dropped = false) ∧
  ∀ production, .enter p production .past ∉ calls

/-- What the calls of a visit to `n` look like. -/
structure Orderly (t : Tree g) (n : NodeId) (calls : List Call) : Prop where
  reports : t.Reports n calls
  balanced : Call.Balanced calls
  reported (m : NodeId) :
    t.Reported calls m ↔ Relation.ReflTransGen (t.GoesInto calls) n m
  shown (call : Call) (h : call ∈ calls) : t.Reported calls call.node
  once : calls.Pairwise fun x y => x.node = y.node → x.ClosedBy y
  inside (m : NodeId) (h : t.Reported calls m) :
    ∃ block, block <:+: calls ∧ t.Reports m block ∧ ∀ x ∈ calls, t.Below m x.node → x ∈ block
  past (m : NodeId) (production : Production) (h : .enter m production .past ∈ calls) :
    [.enter m production .past, .leave m production] <:+: calls

theorem Reported.sublist {block : List Call} (h : t.Reported block m) (hsub : block.Sublist calls) :
    t.Reported calls m := by
  cases h with
  | token htoken hcall => exact .token htoken (hsub.subset hcall)
  | node hinterior hcalls => exact .node hinterior (hcalls.trans hsub)

theorem Reported.exists_call (h : t.Reported calls m) : ∃ call ∈ calls, call.node = m := by
  cases h with
  | token _ hcall => exact ⟨_, hcall, rfl⟩
  | node _ hcalls => exact ⟨_, hcalls.subset List.mem_cons_self, rfl⟩

section Stretches

variable {stretch : Nat → List Call}

/-- A call of a visit into a node is its entry, its exit or about something in a slot. -/
theorem mem_calls_into (hcall : call ∈ Call.enter n production .into ::
      ((List.range slots.length).flatMap stretch ++ [.leave n production])) :
    call = .enter n production .into ∨ (∃ i, call ∈ stretch i) ∨ call = .leave n production := by
  rw [List.mem_cons, List.mem_append, List.mem_flatMap, List.mem_singleton] at hcall
  exact hcall.imp_right (Or.imp_left fun ⟨i, _, h⟩ => ⟨i, h⟩)

theorem forall_stretch {P : List Call → Prop}
    (closed : ∀ i, stretch i ≠ [] → production.shows i = true ∧ ∃ c, slots[i]? = some (some c))
    (hnil : P [])
    (hopened : ∀ i c, slots[i]? = some (some c) → production.shows i = true → P (stretch i))
    (i : Nat) : P (stretch i) := by
  by_cases hempty : stretch i = []
  · rw [hempty]
    exact hnil
  · obtain ⟨hshows, c, hslot⟩ := closed i hempty
    exact hopened i c hslot hshows

end Stretches

structure Layout (t : Tree g) (n : NodeId) (production : Production) (slots : List (Option NodeId))
    (stretch : Nat → List Call) : Prop where
  interior : t.interior n = .ok (production, slots)
  opened (i : Nat) (c : NodeId) (hslot : slots[i]? = some (some c))
    (hshows : production.shows i = true) : t.Reports c (stretch i)
  closed (i : Nat) (h : stretch i ≠ []) :
    production.shows i = true ∧ ∃ c, slots[i]? = some (some c)

theorem Reports.below_node (h : t.Reports n calls) (hcall : call ∈ calls) :
    t.Below n call.node := by
  induction h with
  | token _ =>
    obtain rfl := List.mem_singleton.mp hcall
    exact .refl t _
  | past _ =>
    rcases List.mem_pair.mp hcall with rfl | rfl <;> exact .refl t _
  | into hinterior _ closed ih =>
    rcases mem_calls_into hcall with rfl | ⟨i, hcall⟩ | rfl
    · exact .refl t _
    · obtain ⟨hshows, c, hslot⟩ := closed i (List.ne_nil_of_mem hcall)
      have hc : t.InSlot _ _ i c := ⟨_, hinterior, hslot⟩
      exact (below_of_slot (List.mem_of_getElem? hc.getElem?)).trans (ih i c hslot hshows hcall)
    · exact .refl t _

namespace Layout

variable {stretch : Nat → List Call} {i j : Nat}

theorem exists_child (layout : t.Layout n production slots stretch) (hcall : call ∈ stretch i) :
    ∃ c, t.InSlot n production i c ∧ production.shows i = true ∧ t.Reports c (stretch i) := by
  obtain ⟨hshows, c, hslot⟩ := layout.closed i (List.ne_nil_of_mem hcall)
  exact ⟨c, ⟨slots, layout.interior, hslot⟩, hshows, layout.opened i c hslot hshows⟩

theorem node_ne (layout : t.Layout n production slots stretch) (h : t.Forest)
    (hcall : call ∈ stretch i) : call.node ≠ n := by
  rintro rfl
  obtain ⟨c, hc, _, hreports⟩ := layout.exists_child hcall
  exact h.not_below_of_slot (List.mem_of_getElem? hc.getElem?) (hreports.below_node hcall)

/-- What is below a child is spoken of from the child's slot alone. -/
theorem slot_eq (layout : t.Layout n production slots stretch) (h : t.Forest)
    (hslot : t.InSlot n production i c) (hbelow : t.Below c call.node)
    (hcall : call ∈ stretch j) : i = j := by
  obtain ⟨d, hd, _, hreports⟩ := layout.exists_child hcall
  obtain rfl := h.child_unique (List.mem_of_getElem? hslot.getElem?)
    (List.mem_of_getElem? hd.getElem?) hbelow (hreports.below_node hcall)
  exact (h.slot_unique hslot.getElem? hd.getElem?).2

theorem infix_calls (layout : t.Layout n production slots stretch)
    (hslot : t.InSlot n production i c) :
    stretch i <:+: Call.enter n production .into ::
      ((List.range slots.length).flatMap stretch ++ [.leave n production]) := by
  have hi : i < slots.length := by
    rw [← slots_of_interior layout.interior]
    exact (List.getElem?_eq_some_iff.mp hslot.getElem?).1
  have hpart : stretch i <:+: (List.range slots.length).flatMap stretch := by
    rw [List.flatMap_def]
    exact List.infix_of_mem_flatten (List.mem_map_of_mem (List.mem_range.mpr hi))
  exact hpart.trans (List.infix_cons (List.prefix_append _ _).isInfix)

end Layout

namespace Reports

theorem reported (h : t.Reports n calls) : t.Reported calls n := by
  cases h with
  | token htoken => exact .token htoken List.mem_cons_self
  | past hinterior => exact .node hinterior (List.Sublist.refl _)
  | into hinterior _ _ =>
    refine .node hinterior (List.Sublist.cons_cons _ ?_)
    exact List.sublist_append_right _ _

theorem balanced (h : t.Reports n calls) : Call.Balanced calls := by
  induction h with
  | token _ => exact .token .nil
  | past _ => exact .node .nil .nil
  | into _ _ closed ih => exact .node (.flatMap fun i _ => forall_stretch closed .nil ih i) .nil

/-- Two calls about one node are its entry and its exit. -/
theorem once (hreports : t.Reports n calls) (h : t.Forest) :
    calls.Pairwise fun x y => x.node = y.node → x.ClosedBy y := by
  induction hreports with
  | token _ => exact List.pairwise_singleton _ _
  | past _ => exact List.pairwise_pair.mpr fun _ => ⟨_, _, _, rfl, rfl⟩
  | @into n production slots stretch hinterior opened closed ih =>
    have layout : t.Layout n production slots stretch := ⟨hinterior, opened, closed⟩
    -- the entry with all others, two calls from one slot, from two slots, and all with the exit
    refine List.pairwise_cons.mpr ⟨fun x hx heq => ?_, List.pairwise_append.mpr
      ⟨List.pairwise_flatMap.mpr ⟨fun i _ => ?_, ?_⟩, List.pairwise_singleton _ _, ?_⟩⟩
    · rcases List.mem_append.mp hx with hx | hx
      · obtain ⟨i, _, hx⟩ := List.mem_flatMap.mp hx
        exact absurd heq.symm (layout.node_ne h hx)
      · obtain rfl := List.mem_singleton.mp hx
        exact ⟨_, _, _, rfl, rfl⟩
    · exact forall_stretch closed .nil ih i
    · refine List.pairwise_lt_range.imp fun {i j} hlt x hx y hy heq => ?_
      obtain ⟨c, hc, _, hchild⟩ := layout.exists_child hx
      exact absurd (layout.slot_eq h hc (heq ▸ hchild.below_node hx) hy) (Nat.ne_of_lt hlt)
    · intro x hx y hy heq
      obtain ⟨i, _, hx⟩ := List.mem_flatMap.mp hx
      obtain rfl := List.mem_singleton.mp hy
      exact absurd heq (layout.node_ne h hx)

/-- The calls about a node and what is below it follow each other without any others. -/
theorem exists_block (hreports : t.Reports n calls) (h : t.Forest) (hcall : call ∈ calls) :
    ∃ block, block <:+: calls ∧ t.Reports call.node block ∧
      ∀ x ∈ calls, t.Below call.node x.node → x ∈ block := by
  induction hreports with
  | token htoken =>
    obtain rfl := List.mem_singleton.mp hcall
    exact ⟨_, List.infix_rfl, .token htoken, fun x hx _ => hx⟩
  | past hinterior =>
    rcases List.mem_pair.mp hcall with rfl | rfl <;>
      exact ⟨_, List.infix_rfl, .past hinterior, fun x hx _ => hx⟩
  | @into n production slots stretch hinterior opened closed ih =>
    have layout : t.Layout n production slots stretch := ⟨hinterior, opened, closed⟩
    rcases mem_calls_into hcall with rfl | ⟨i, hcall⟩ | rfl
    · exact ⟨_, List.infix_rfl, .into hinterior opened closed, fun x hx _ => hx⟩
    · obtain ⟨hshows, c, hslot⟩ := closed i (List.ne_nil_of_mem hcall)
      have hc : t.InSlot n production i c := ⟨slots, hinterior, hslot⟩
      obtain ⟨block, hwithin, hblock, hinside⟩ := ih i c hslot hshows hcall
      refine ⟨block, hwithin.trans (layout.infix_calls hc), hblock, fun x hx hbelow => ?_⟩
      -- `x` is below the child in slot `i`, so it cannot come from anywhere else
      have hbelow' := ((opened i c hslot hshows).below_node hcall).trans hbelow
      rcases mem_calls_into hx with rfl | ⟨j, hx⟩ | rfl
      · exact absurd hbelow' (h.not_below_of_slot (List.mem_of_getElem? hc.getElem?))
      · obtain rfl := layout.slot_eq h hc hbelow' hx
        exact hinside x hx hbelow
      · exact absurd hbelow' (h.not_below_of_slot (List.mem_of_getElem? hc.getElem?))
    · exact ⟨_, List.infix_rfl, .into hinterior opened closed, fun x hx _ => hx⟩

/-- A node that is spoken of is the first or in a shown slot of one that the visitor went into. -/
theorem parent_entered (hreports : t.Reports n calls) (hcall : call ∈ calls) :
    call.node = n ∨ ∃ p production i, t.InSlot p production i call.node ∧
      production.shows i = true ∧ .enter p production .into ∈ calls := by
  induction hreports with
  | token _ =>
    obtain rfl := List.mem_singleton.mp hcall
    exact .inl rfl
  | past _ =>
    rcases List.mem_pair.mp hcall with rfl | rfl <;> exact .inl rfl
  | @into n production slots stretch hinterior opened closed ih =>
    have layout : t.Layout n production slots stretch := ⟨hinterior, opened, closed⟩
    rcases mem_calls_into hcall with rfl | ⟨i, hcall⟩ | rfl
    · exact .inl rfl
    · obtain ⟨hshows, c, hslot⟩ := closed i (List.ne_nil_of_mem hcall)
      have hc : t.InSlot n production i c := ⟨slots, hinterior, hslot⟩
      right
      rcases ih i c hslot hshows hcall with rfl | ⟨p, production', j, hp, hshows', henter⟩
      · exact ⟨n, production, i, hc, hshows, List.mem_cons_self⟩
      · exact ⟨p, production', j, hp, hshows', (layout.infix_calls hc).subset henter⟩
    · exact .inl rfl

theorem head?_eq (hreports : t.Reports n calls) (h : t.Forest) {answer : Descent}
    (hcall : .enter n production answer ∈ calls) :
    calls.head? = some (.enter n production answer) := by
  cases hreports with
  | token _ => cases List.mem_singleton.mp hcall
  | past _ =>
    rcases List.mem_pair.mp hcall with heq | heq
    · rw [heq, List.head?_cons]
    · cases heq
  | into hinterior opened closed =>
    have layout : t.Layout n _ _ _ := ⟨hinterior, opened, closed⟩
    rcases mem_calls_into hcall with heq | ⟨i, hcall⟩ | heq
    · rw [heq, List.head?_cons]
    · exact absurd rfl (layout.node_ne h hcall)
    · cases heq

theorem answer_unique (hreports : t.Reports n calls) (h : t.Forest) {production' : Production}
    {answer answer' : Descent} (hcall : .enter m production answer ∈ calls)
    (hcall' : .enter m production' answer' ∈ calls) : answer = answer' := by
  obtain ⟨block, _, hblock, hinside⟩ := hreports.exists_block h hcall
  have hhead := hblock.head?_eq h (hinside _ hcall (.refl t m))
  have hhead' := hblock.head?_eq h (hinside _ hcall' (.refl t m))
  exact (Call.enter.inj (Option.some.inj (hhead.symm.trans hhead'))).2.2

/-- A node that the visitor went past is left at once. -/
theorem past_left (hreports : t.Reports n calls) (h : t.Forest)
    (hcall : .enter m production .past ∈ calls) :
    [.enter m production .past, .leave m production] <:+: calls := by
  obtain ⟨block, hwithin, hblock, hinside⟩ := hreports.exists_block h hcall
  have hhead := hblock.head?_eq h (hinside _ hcall (.refl t m))
  cases hblock with
  | token _ => cases hhead
  | past _ =>
    cases hhead
    exact hwithin
  | into _ _ _ => cases hhead

/-- All that is spoken of can be reached through what is shown. -/
theorem reached (hreports : t.Reports n calls) (h : t.Forest) (hcall : call ∈ calls) :
    Relation.ReflTransGen (t.GoesInto calls) n call.node := by
  -- upwards: the parent was gone into, so there is a call about it too
  generalize hm : call.node = m
  induction m using h.acyclic.induction generalizing call with
  | _ m ih =>
    subst hm
    rcases hreports.parent_entered hcall with heq | ⟨p, production, i, hslot, hshows, henter⟩
    · rw [heq]
    obtain ⟨rule, hrule⟩ := Production.shows_eq_true.mp hshows
    refine (ih p (hslot.parent h) henter rfl).tail ⟨⟨production, i, rule, hslot, hrule⟩, ?_⟩
    intro production' hpast
    cases hreports.answer_unique h henter hpast

theorem reported_of_call (hreports : t.Reports n calls) (h : t.Forest) (hcall : call ∈ calls) :
    t.Reported calls call.node := by
  obtain ⟨block, hwithin, hblock, _⟩ := hreports.exists_block h hcall
  exact hblock.reported.sublist hwithin.sublist

/-- What a reported node shows is reported unless the visitor went past the node. -/
theorem reported_child (hreports : t.Reports n calls) (h : t.Forest) (hp : t.Reported calls p)
    (hinto : t.GoesInto calls p c) : t.Reported calls c := by
  obtain ⟨call, hcall, rfl⟩ := hp.exists_call
  obtain ⟨⟨production, i, rule, hslot, hrule⟩, hpast⟩ := hinto
  obtain ⟨block, hwithin, hblock, _⟩ := hreports.exists_block h hcall
  obtain ⟨slots, hinterior, hc⟩ := id hslot
  cases hblock with
  | token htoken => cases (interior_of_token htoken).symm.trans hinterior
  | past _ => exact absurd (hwithin.subset List.mem_cons_self) (hpast _)
  | into hinterior' opened closed =>
    cases hinterior.symm.trans hinterior'
    have hchild := opened i c hc (Production.shows_eq_true.mpr ⟨rule, hrule⟩)
    have hpart := Layout.infix_calls ⟨hinterior', opened, closed⟩ hslot
    exact hchild.reported.sublist (hpart.trans hwithin).sublist

theorem reported_iff (hreports : t.Reports n calls) (h : t.Forest) (m : NodeId) :
    t.Reported calls m ↔ Relation.ReflTransGen (t.GoesInto calls) n m := by
  constructor
  · intro hm
    obtain ⟨call, hcall, rfl⟩ := hm.exists_call
    exact hreports.reached h hcall
  · intro hpath
    induction hpath with
    | refl => exact hreports.reported
    | tail _ hinto ih => exact hreports.reported_child h ih hinto

theorem orderly (hreports : t.Reports n calls) (h : t.Forest) : t.Orderly n calls where
  reports := hreports
  balanced := hreports.balanced
  reported := hreports.reported_iff h
  shown _ hcall := hreports.reported_of_call h hcall
  once := hreports.once h
  inside m hm := by
    obtain ⟨call, hcall, rfl⟩ := hm.exists_call
    exact hreports.exists_block h hcall
  past _ _ hcall := hreports.past_left h hcall

end Reports

section Slots

variable {P : NodeId → List Call → Prop} {blocks : List (List Call)}

theorem exists_first_stretch {slot : Option NodeId} {nodes : List NodeId} {k : Nat}
    (h : List.Forall₂ P ((if production.shows k then slot else none).toList ++ nodes) blocks) :
    ∃ first rest, blocks.flatten = first ++ rest.flatten ∧ List.Forall₂ P nodes rest ∧
      (∀ c, slot = some c → production.shows k = true → P c first) ∧
      (first ≠ [] → production.shows k = true ∧ ∃ c, slot = some c) := by
  by_cases hopen : production.shows k = true ∧ ∃ c, slot = some c
  · obtain ⟨hshows, c, rfl⟩ := hopen
    rw [if_pos hshows] at h
    cases h with
    | cons hfirst hrest =>
      refine ⟨_, _, List.flatten_cons, hrest, ?_, fun _ => ⟨hshows, c, rfl⟩⟩
      rintro d ⟨⟩ _
      exact hfirst
  · have hnone : (if production.shows k then slot else none) = none := by
      cases slot <;> simp_all
    rw [hnone] at h
    refine ⟨[], blocks, rfl, h, ?_, fun hne => absurd rfl hne⟩
    rintro c rfl hshows
    exact absurd ⟨hshows, c, rfl⟩ hopen

theorem exists_stretches_from (k : Nat)
    (h : List.Forall₂ P
      ((slots.zipIdx k).filterMap fun x => if production.shows x.2 then x.1 else none) blocks) :
    ∃ stretch, blocks.flatten = (List.range slots.length).flatMap stretch ∧
      (∀ i c, slots[i]? = some (some c) → production.shows (k + i) = true → P c (stretch i)) ∧
      ∀ i, stretch i ≠ [] → production.shows (k + i) = true ∧ ∃ c, slots[i]? = some (some c) := by
  induction slots generalizing k blocks with
  | nil =>
    cases h
    exact ⟨fun _ => [], rfl, fun i c hslot => by simp at hslot, fun i hne => absurd rfl hne⟩
  | cons slot slots ih =>
    rw [List.zipIdx_cons, List.filterMap_eq_flatMap_toList, List.flatMap_cons,
      ← List.filterMap_eq_flatMap_toList] at h
    obtain ⟨first, rest, hblocks, hrest, hopened, hclosed⟩ := exists_first_stretch h
    obtain ⟨stretch, hstretch, hopened', hclosed'⟩ := ih (k + 1) hrest
    refine ⟨fun i => Nat.casesOn i first stretch, ?_, fun i c hslot hshows => ?_, fun i hne => ?_⟩
    · rw [hblocks, hstretch, List.length_cons, List.range_succ_eq_map, List.flatMap_cons,
        List.flatMap_map]
      rfl
    · cases i with
      | zero => exact hopened c (by simpa using hslot) hshows
      | succ i => exact hopened' i c hslot (by rwa [Nat.add_right_comm, Nat.add_assoc])
    · cases i with
      | zero => simpa using hclosed hne
      | succ i => simpa [Nat.add_right_comm, Nat.add_assoc] using hclosed' i hne

/-- Blocks of calls about the children that are gone into, sorted by the slots of the children. -/
theorem exists_stretches (h : List.Forall₂ P (visible production slots) blocks) :
    ∃ stretch, blocks.flatten = (List.range slots.length).flatMap stretch ∧
      (∀ i c, slots[i]? = some (some c) → production.shows i = true → P c (stretch i)) ∧
      ∀ i, stretch i ≠ [] → production.shows i = true ∧ ∃ c, slots[i]? = some (some c) := by
  simpa only [Nat.zero_add] using exists_stretches_from 0 h

end Slots

structure Makes (v : Visitor g σ) (t : Tree g) (walk : σ → σ × Except TreeError Unit)
    (logging : σ × List Call → (σ × List Call) × Except TreeError Unit)
    (s : σ) (calls : List Call) (s' : σ) : Prop where
  result : walk s = (s', .ok ())
  log (log : List Call) : logging (s, log) = ((s', log ++ calls), .ok ())
  replay : calls.foldlM (v.call? t) s = some s'

section Walks

variable {v : Visitor g σ} {visit : NodeId → σ → σ × Except TreeError Unit}
  {visitLogged : NodeId → σ × List Call → (σ × List Call) × Except TreeError Unit}
  {nodes : List NodeId} {s s₁ s' : σ} {fuel : Nat}

theorem makes_nil : Makes v t (visitAll visit []) (visitAll visitLogged []) s [] s where
  result := rfl
  log log := by
    rw [List.append_nil]
    rfl
  replay := rfl

theorem Makes.cons {first rest : List Call}
    (hfirst : Makes v t (visit n) (visitLogged n) s first s₁)
    (hrest : Makes v t (visitAll visit nodes) (visitAll visitLogged nodes) s₁ rest s') :
    Makes v t (visitAll visit (n :: nodes)) (visitAll visitLogged (n :: nodes)) s (first ++ rest)
      s' where
  result := by simp only [visitAll, hfirst.result, hrest.result]
  log log := by simp only [visitAll, hfirst.log, hrest.log, List.append_assoc]
  replay := by
    rw [List.foldlM_append, hfirst.replay]
    exact hrest.replay

theorem exists_makes_all {P : NodeId → List Call → Prop}
    (h : ∀ c ∈ nodes, ∀ s, ∃ s' calls, Makes v t (visit c) (visitLogged c) s calls s' ∧ P c calls)
    (s : σ) : ∃ s' blocks,
      Makes v t (visitAll visit nodes) (visitAll visitLogged nodes) s blocks.flatten s' ∧
      List.Forall₂ P nodes blocks := by
  induction nodes generalizing s with
  | nil => exact ⟨s, [], makes_nil, .nil⟩
  | cons c nodes ih =>
    obtain ⟨s₁, first, hfirst, hc⟩ := h c List.mem_cons_self s
    obtain ⟨s', blocks, hrest, hblocks⟩ := ih (fun d hd => h d (List.mem_cons_of_mem c hd)) s₁
    exact ⟨s', first :: blocks, hfirst.cons hrest, .cons hc hblocks⟩

theorem visitFrom_of_token {token : Token} (hfresh : t.isStale n = false)
    (htoken : t.token? n = some token) :
    t.visitFrom v (fuel + 1) n s = (v.token t n token s, .ok ()) := by
  simp only [visitFrom, (check_eq_ok t n).mpr hfresh, htoken]

theorem visitFrom_of_past (hfresh : t.isStale n = false)
    (hinterior : t.interior n = .ok (production, slots))
    (hanswer : v.enter t n production s = (.past, s₁)) :
    t.visitFrom v (fuel + 1) n s = (v.leave t n production s₁, .ok ()) := by
  obtain ⟨rule, hform, _⟩ := interior_eq_ok hinterior
  simp only [visitFrom, (check_eq_ok t n).mpr hfresh, token?_of_form hform, hinterior, hanswer]

theorem visitFrom_of_into (hfresh : t.isStale n = false)
    (hinterior : t.interior n = .ok (production, slots))
    (hanswer : v.enter t n production s = (.into, s₁))
    (hall : visitAll (t.visitFrom v fuel) (visible production slots) s₁ = (s', .ok ())) :
    t.visitFrom v (fuel + 1) n s = (v.leave t n production s', .ok ()) := by
  obtain ⟨rule, hform, _⟩ := interior_eq_ok hinterior
  simp only [visitFrom, (check_eq_ok t n).mpr hfresh, token?_of_form hform, hinterior, hanswer,
    hall]

theorem enter_logged {answer : Descent} (hanswer : v.enter t n production s = (answer, s₁))
    (log : List Call) :
    v.logged.enter t n production (s, log) = (answer, s₁, log ++ [.enter n production answer]) := by
  simp only [Visitor.logged, hanswer]

theorem call?_enter {answer : Descent} (hanswer : v.enter t n production s = (answer, s₁)) :
    v.call? t s (.enter n production answer) = some s₁ := by
  simp only [Visitor.call?, hanswer, if_true]

theorem makes_token {token : Token} (hfresh : t.isStale n = false)
    (htoken : t.token? n = some token) :
    Makes v t (t.visitFrom v (fuel + 1) n) (t.visitFrom v.logged (fuel + 1) n) s [.token n token]
      (v.token t n token s) where
  result := visitFrom_of_token hfresh htoken
  log _ := visitFrom_of_token hfresh htoken
  replay := rfl

theorem makes_past (hfresh : t.isStale n = false)
    (hinterior : t.interior n = .ok (production, slots))
    (hanswer : v.enter t n production s = (.past, s₁)) :
    Makes v t (t.visitFrom v (fuel + 1) n) (t.visitFrom v.logged (fuel + 1) n) s
      [.enter n production .past, .leave n production] (v.leave t n production s₁) where
  result := visitFrom_of_past hfresh hinterior hanswer
  log log := by
    rw [visitFrom_of_past hfresh hinterior (enter_logged hanswer log)]
    simp [Visitor.logged]
  replay := by
    rw [List.foldlM_cons, call?_enter hanswer]
    rfl

theorem Makes.into (hfresh : t.isStale n = false)
    (hinterior : t.interior n = .ok (production, slots))
    (hanswer : v.enter t n production s = (.into, s₁))
    (hmakes : Makes v t (visitAll (t.visitFrom v fuel) (visible production slots))
      (visitAll (t.visitFrom v.logged fuel) (visible production slots)) s₁ calls s') :
    Makes v t (t.visitFrom v (fuel + 1) n) (t.visitFrom v.logged (fuel + 1) n) s
      (.enter n production .into :: (calls ++ [.leave n production]))
      (v.leave t n production s') where
  result := visitFrom_of_into hfresh hinterior hanswer hmakes.result
  log log := by
    rw [visitFrom_of_into hfresh hinterior (enter_logged hanswer log) (hmakes.log _)]
    simp [Visitor.logged]
  replay := by
    rw [List.foldlM_cons, call?_enter hanswer, Option.bind_eq_bind, Option.bind_some,
      List.foldlM_append, hmakes.replay]
    rfl

theorem mem_slots_of_visible (h : c ∈ visible production slots) : some c ∈ slots := by
  obtain ⟨⟨slot, i⟩, hslot, hshown⟩ := List.mem_filterMap.mp h
  rw [Option.ite_none_right_eq_some] at hshown
  obtain ⟨_, rfl⟩ := hshown
  exact List.fst_mem_of_mem_zipIdx hslot

/-- A visit with enough steps for the levels below the node comes to its end. -/
theorem Ends.exists_makes {k : Nat} (hends : t.Ends k n) (h : t.Forest) (hn : n < t.size)
    (hfresh : ∀ m, t.Below n m → t.isStale m = false) (hfuel : k ≤ fuel) (s : σ) :
    ∃ s' calls, Makes v t (t.visitFrom v fuel n) (t.visitFrom v.logged fuel n) s calls s' ∧
      t.Reports n calls := by
  induction k generalizing n fuel s with
  | zero => cases hends
  | succ k ih =>
    obtain ⟨fuel, rfl⟩ : ∃ f, fuel = f + 1 := ⟨fuel - 1, by omega⟩
    have hself := hfresh n (.refl t n)
    rcases token_or_form hn with ⟨token, htoken⟩ | ⟨rule, slots, hform⟩
    · exact ⟨_, _, makes_token hself htoken, .token htoken⟩
    obtain ⟨production, hrule, _⟩ := h.arity hform
    have hinterior := interior_of_form hform hrule
    rcases hanswer : v.enter t n production s with ⟨_ | _, s₁⟩
    · have hchild : ∀ c ∈ visible production slots, ∀ s, ∃ s' calls,
          Makes v t (t.visitFrom v fuel c) (t.visitFrom v.logged fuel c) s calls s' ∧
            t.Reports c calls := by
        intro c hc s
        have hslot : some c ∈ t.slots n := slots_of_form hform ▸ mem_slots_of_visible hc
        exact ih (hends c hslot) (h.slot_lt hslot)
          (fun m hm => hfresh m ((below_of_slot hslot).trans hm)) (by omega) s
      obtain ⟨s', blocks, hmakes, hblocks⟩ := exists_makes_all hchild s₁
      obtain ⟨stretch, hstretch, hopened, hclosed⟩ := exists_stretches hblocks
      rw [hstretch] at hmakes
      exact ⟨_, _, hmakes.into hself hinterior hanswer, .into hinterior hopened hclosed⟩
    · exact ⟨_, _, makes_past hself hinterior hanswer, .past hinterior⟩

end Walks

/-- A visit to a node below which nothing was edited ends, whatever the visitor answers. Its calls
are the visitor's own, with the answers that it gives in the states it comes to, and they are
orderly. -/
theorem visit_calls_are_orderly (h : t.Forest) (hn : n < t.size)
    (hfresh : ∀ m, t.Below n m → t.isStale m = false) (v : Visitor g σ) (s : σ) :
    ∃ s' calls, t.visit v n s = (s', .ok ()) ∧
      t.visit v.logged n (s, []) = ((s', calls), .ok ()) ∧
      calls.foldlM (v.call? t) s = some s' ∧ t.Orderly n calls := by
  obtain ⟨s', calls, hmakes, hreports⟩ :=
    (h.ends hn).exists_makes h hn hfresh (Nat.le_refl _) s
  exact ⟨s', calls, hmakes.result, hmakes.log [], hmakes.replay, hreports.orderly h⟩

-- A block of two phrases with a mark between them that is hidden from visitors.
namespace Phrases

def steps : List Grammar.Step :=
  [.terminal "name", .terminal ";", .nonterminal "block", .nonterminal "phrase",
    .productionWith 0 [.nonterminal 1, .terminal 1, .nonterminal 1]
      [.keep, SlotRule.keep.hidden, .keep],
    .production 1 [.terminal 0]]

def grammar : Grammar := (Grammar.Draft.empty.applyAll steps).finished 0

def edits : List Edit :=
  [.newToken ⟨0, "a", "", ⟨0, 1, 1⟩⟩, .newToken ⟨1, ";", "", ⟨1, 1, 2⟩⟩,
    .newToken ⟨0, "b", "", ⟨2, 1, 3⟩⟩, .newNode 1 [some 0], .newNode 1 [some 2],
    .newNode 0 [some 3, some 1, some 4]]

def tree : Tree grammar := Edit.afterAll (empty grammar) edits

theorem forest : tree.Forest := by
  refine (forest_empty grammar).afterAll ?_
  refine ⟨?_, ?_, ?_, ?_, ?_, ?_, trivial⟩ <;> decide +kernel

theorem fresh {m : NodeId} (h : tree.Below 5 m) : tree.isStale m = false := by
  have hall : ∀ m < 6, tree.isStale m = false := by decide +kernel
  exact hall m (forest.below_lt (by decide) h)

def counter : Visitor grammar Nat where
  enter _ _ _ count := (if count = 2 then .past else .into, count + 1)
  leave _ _ _ count := count
  token _ _ _ count := count

def block : Production :=
  ⟨0, 0, [.nonterminal 1, .terminal 1, .nonterminal 1], [.keep, SlotRule.keep.hidden, .keep], none,
    false⟩

def phrase : Production := ⟨1, 1, [.terminal 0], [.keep], none, false⟩

def report : List Call :=
  [.enter 5 block .into, .enter 3 phrase .into, .token 0 ⟨0, "a", "", ⟨0, 1, 1⟩⟩, .leave 3 phrase,
    .enter 4 phrase .past, .leave 4 phrase, .leave 5 block]

end Phrases

/-- The second phrase is entered and left, and neither its token nor the mark is shown. -/
theorem third_node_is_gone_past :
    Phrases.tree.visit Phrases.counter 5 0 = (3, .ok ()) ∧
      Phrases.tree.visit Phrases.counter.logged 5 (0, []) = ((3, Phrases.report), .ok ()) ∧
      Phrases.tree.Orderly 5 Phrases.report := by
  have hrun : Phrases.tree.visit Phrases.counter.logged 5 (0, []) =
      ((3, Phrases.report), .ok ()) := by
    decide +kernel
  obtain ⟨s', calls, hresult, hlog, _, horderly⟩ :=
    visit_calls_are_orderly Phrases.forest (n := 5) (by decide) (fun _ => Phrases.fresh)
      Phrases.counter 0
  cases hlog.symm.trans hrun
  exact ⟨hresult, hrun, horderly⟩

end Tree

end TableLR
