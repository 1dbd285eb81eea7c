import Extraction.Proofs.Accesses
import Extraction.Proofs.Classification
import Mathlib.Data.List.Pairwise

/-!
# Variables inside and outside a selection

If each variable is declared at most once and holds a value from then on, a variable counts as
declared in a selection exactly if its declarator is selected.  The arguments, the locals that move
and the locals that stay then divide the variables that a legal selection accesses, and whatever it
declares for the code behind it stays or is returned.
-/

namespace Extraction

theorem eq_of_nodup_filterMap {α β : Type} {g : α → Option β} {l : List α}
    (h : (l.filterMap g).Nodup) {a b : α} {x : β} (ha : a ∈ l) (hb : b ∈ l) (hga : g a = some x)
    (hgb : g b = some x) : a = b := by
  by_contra hne
  rw [List.Nodup, List.pairwise_filterMap] at h
  have hsymm : Std.Symm fun a b => ∀ x, g a = some x → ∀ y, g b = some y → x ≠ y :=
    ⟨fun _ _ hab u hu v hv huv => hab v hv u hu huv.symm⟩
  exact h.forall ha hb hne x hga x hgb rfl

namespace Sketch

def payloads (s : Sketch) : List Payload :=
  s.root :: s.children.toList

/-- No variable of the sketch has a place yet, equal keys are those of one variable, and every
variable is declared at most once, with a value. -/
structure DeclaresOnce (s : Sketch) : Prop where
  fresh : ∀ p ∈ s.payloads, ∀ b ∈ p.binding, b.pos = -1
  keyed : ∀ p ∈ s.payloads, ∀ q ∈ s.payloads, ∀ b ∈ p.binding, ∀ c ∈ q.binding,
    b.key = c.key → b = c
  once : ((s.payloads.filter fun p => p.kind = .declarator).filterMap (·.binding)).Nodup
  initialized : ∀ p ∈ s.payloads, p.kind = .declarator → p.initialized = true

instance (s : Sketch) : Decidable s.DeclaresOnce :=
  decidable_of_iff (_ ∧ _ ∧ _ ∧ _)
    ⟨fun ⟨h₁, h₂, h₃, h₄⟩ => ⟨h₁, h₂, h₃, h₄⟩, fun ⟨h₁, h₂, h₃, h₄⟩ => ⟨h₁, h₂, h₃, h₄⟩⟩

theorem map_toPayload_layoutFrom (f : Forest Payload) (offset : Int) (id : Nat) :
    (layoutFrom offset id f).toList.map (·.toPayload) = f.toList := by
  induction f generalizing offset id with
  | nil => rfl
  | cons p children rest ihc ihr => simp [layoutFrom, Forest.toList, ihc, ihr]

/-- The forest that `layout` lays out, before the variables know where they are declared. -/
def placed (s : Sketch) : SyntaxTree :=
  layoutFrom 0 0 (.cons s.root s.children .nil)

theorem map_toPayload_placed (s : Sketch) : s.placed.toList.map (·.toPayload) = s.payloads := by
  rw [placed, map_toPayload_layoutFrom, Forest.toList, payloads]
  simp [Forest.toList]

theorem toList_layout (s : Sketch) :
    s.layout.toList = s.placed.toList.map fun n =>
      { n with binding := n.binding.map (declaredIn s.placed) } :=
  Forest.toList_map _ _

theorem payload_mem {s : Sketch} {n : Node} (hn : n ∈ s.placed.toList) :
    n.toPayload ∈ s.payloads := by
  rw [← map_toPayload_placed]
  exact List.mem_map_of_mem hn

theorem exists_placed {s : Sketch} {n : Node} (hn : n ∈ s.layout.toList) {v : Binding}
    (hv : n.binding = some v) :
    ∃ k ∈ s.placed.toList, ∃ b, k.binding = some b ∧ v = declaredIn s.placed b ∧
      n = { k with binding := some v } := by
  rw [toList_layout] at hn
  obtain ⟨k, hk, rfl⟩ := List.mem_map.mp hn
  obtain ⟨b, hb, rfl⟩ := Option.map_eq_some_iff.mp hv
  exact ⟨k, hk, b, hb, rfl, by rw [← hv]⟩

theorem DeclaresOnce.declaredAt?_eq_some {s : Sketch} (hs : s.DeclaresOnce) {k : Node}
    (hk : k ∈ s.placed.toList) {b : Binding} (hb : k.binding = some b) {start : Int}
    (h : declaredAt? s.placed b.key = some start) :
    ∃ d ∈ s.placed.toList, d.kind = .declarator ∧ d.binding = some b ∧ d.start = start := by
  obtain ⟨d, hd, rfl⟩ := Option.map_eq_some_iff.mp h
  have hfound := List.find?_some hd
  simp only [Bool.and_eq_true, decide_eq_true_eq, Option.any_eq_true, beq_iff_eq] at hfound
  obtain ⟨hkind, c, hc, hkey⟩ := hfound
  have hmem := List.mem_reverse.mp (List.mem_of_find?_eq_some hd)
  refine ⟨d, hmem, hkind, ?_, rfl⟩
  rw [hc, hs.keyed _ (payload_mem hmem) _ (payload_mem hk) c hc b hb hkey]

theorem DeclaresOnce.declarator_unique {s : Sketch} (hs : s.DeclaresOnce) {d k : Node} {b : Binding}
    (hd : d ∈ s.placed.toList) (hk : k ∈ s.placed.toList) (hdkind : d.kind = .declarator)
    (hkkind : k.kind = .declarator) (hdb : d.binding = some b) (hkb : k.binding = some b) :
    d = k := by
  have honce : ((s.placed.toList.filter fun n => n.kind = .declarator).filterMap
      (·.binding)).Nodup := by
    have := hs.once
    rw [← map_toPayload_placed, List.filter_map, List.filterMap_map] at this
    exact this
  exact eq_of_nodup_filterMap honce (List.mem_filter.mpr ⟨hd, decide_eq_true hdkind⟩)
    (List.mem_filter.mpr ⟨hk, decide_eq_true hkkind⟩) hdb hkb

theorem DeclaresOnce.exists_declarator {s : Sketch} (hs : s.DeclaresOnce) {n : Node}
    (hn : n ∈ s.layout.toList) {v : Binding} (hv : n.binding = some v) (hpos : 0 ≤ v.pos) :
    ∃ d ∈ s.layout.toList, d.kind = .declarator ∧ d.initialized = true ∧ d.binding = some v ∧
      d.start = v.pos := by
  obtain ⟨k, hk, b, hb, rfl, -⟩ := exists_placed hn hv
  cases hat : declaredAt? s.placed b.key with
  | none =>
    have hfresh := hs.fresh _ (payload_mem hk) b hb
    simp only [declaredIn, hat, Option.getD_none] at hpos
    omega
  | some start =>
    obtain ⟨d, hd, hkind, hdb, rfl⟩ := hs.declaredAt?_eq_some hk hb hat
    have hinitialized := hs.initialized _ (payload_mem hd) hkind
    refine ⟨{ d with binding := d.binding.map (declaredIn s.placed) }, ?_, hkind,
      hinitialized, ?_, ?_⟩
    · rw [toList_layout]
      exact List.mem_map_of_mem hd
    · simp [hdb]
    · simp [declaredIn, hat]

theorem DeclaresOnce.pos_eq {s : Sketch} (hs : s.DeclaresOnce) {d : Node} (hd : d ∈ s.layout.toList)
    (hkind : d.kind = .declarator) {v : Binding} (hv : d.binding = some v) : v.pos = d.start := by
  obtain ⟨k, hk, b, hb, rfl, hdk⟩ := exists_placed hd hv
  have hkkind : k.kind = .declarator := by
    rw [hdk] at hkind
    exact hkind
  have hfound : (declaredAt? s.placed b.key).isSome = true := by
    rw [declaredAt?, Option.isSome_map, List.find?_isSome]
    exact ⟨k, List.mem_reverse.mpr hk, by simp [hkkind, hb]⟩
  obtain ⟨start, hat⟩ := Option.isSome_iff_exists.mp hfound
  obtain ⟨d', hd', hkind', hdb', rfl⟩ := hs.declaredAt?_eq_some hk hb hat
  rw [hs.declarator_unique hd' hk hkind' hkkind hdb' hb] at hat
  rw [hdk]
  simp [declaredIn, hat]

end Sketch

theorem Extent.past_between {start stop : Int} {sel : Extent} (hstart : 0 ≤ start)
    (hle : start ≤ stop) (hfits : stop < 0x8000000000000000)
    (h : Extent.between start stop = .ok sel) :
    sel.offset = start ∧ sel.past = stop := by
  have hword : ∀ x : Int, 0 ≤ x → x < 0x8000000000000000 → word x = x := by
    intro x _ _
    apply Int.bmod_eq_of_le <;> omega
  rw [between, if_neg (Int.not_lt.mpr hle)] at h
  cases h
  refine ⟨rfl, ?_⟩
  change word (start + word (stop - start)) = stop
  rw [hword (stop - start) (by omega) (by omega), hword _ (by omega) (by omega)]
  omega

theorem Place.tracked?_eq_some {p : Place} {v : Binding} :
    p.tracked? = some v ↔ p.node.binding = some v ∧ v.isVariable = true := by
  unfold tracked?
  split
  next b hb =>
    split
    next hvar => simp only [hb, Option.some.injEq, iff_self_and]; rintro rfl; exact hvar
    next hvar =>
      simp only [hb, reduceCtorEq, Option.some.injEq, false_iff, not_and]; rintro rfl; exact hvar
  next hb => simp [hb]

theorem Place.Accesses.exists_tracked {p : Place} {a : Access} (h : p.Accesses a) :
    ∃ c, (c = p ∨ c ∈ p.inner) ∧ c.tracked? = some a.binding := by
  rcases h with htouch | ⟨-, c, hc, htracked⟩
  · refine ⟨p, Or.inl rfl, ?_⟩
    unfold touches at htouch
    split at htouch
    · simp only [List.mem_flatMap, Option.mem_toList, List.mem_map] at htouch
      obtain ⟨b, hb, mode, -, rfl⟩ := htouch
      exact hb
    · cases htouch
  · refine ⟨c, ?_, htracked⟩
    rcases mem_stores hc with ⟨-, heq⟩ | ⟨hchild, -⟩
    · exact Or.inl heq
    · exact Or.inr (SyntaxTree.child_mem_inner hchild)

namespace Locals

variable {events : List Event} {sel : Extent} {v : Binding}

theorem mem_callerLocals_ofEvents :
    v ∈ (ofEvents events).callerLocals sel ↔ (ofEvents events).StaysInCaller sel v := by
  rw [callerLocals, List.mem_filter]
  exact ⟨fun h => of_decide_eq_true h.2,
    fun h => ⟨(listed_ofEvents events).followingWrites v h.2, decide_eq_true h⟩⟩

/-- Where the candidates agree, each of them is the return value, so all that is written and belongs
nowhere else is a local. -/
theorem mem_extractedLocals_ofEvents (hone : (ofEvents events).candidates.length ≤ 1) :
    v ∈ (ofEvents events).extractedLocals sel ↔ v ∈ (ofEvents events).selectedWrites ∧
      ¬ (ofEvents events).IsArgument sel v ∧ ¬ (ofEvents events).StaysInCaller sel v := by
  have hreturned : (ofEvents events).IsCandidate v →
      (ofEvents events).returnValue.isSome = true := by
    intro hcandidate
    rw [returnValue_of_mem hone (mem_candidates_ofEvents.mpr hcandidate)]
    rfl
  rw [extractedLocals, List.mem_filter, decide_eq_true_eq]
  constructor
  · rintro ⟨-, hwrite, hargument, hstays, -⟩
    exact ⟨hwrite, hargument, hstays⟩
  · rintro ⟨hwrite, hargument, hstays⟩
    refine ⟨(listed_ofEvents events).selectedWrites v hwrite, hwrite, hargument, hstays, ?_⟩
    by_cases hcandidate : (ofEvents events).IsCandidate v
    · exact Or.inl (hreturned hcandidate)
    · exact Or.inr hcandidate

theorem nodup_classes (events : List Event) (sel : Extent) :
    ((ofEvents events).arguments sel ++ (ofEvents events).extractedLocals sel ++
      (ofEvents events).callerLocals sel).Nodup := by
  have hnodup := (listed_ofEvents events).nodup
  refine List.nodup_append.mpr ⟨List.nodup_append.mpr ⟨hnodup.filter _, hnodup.filter _, ?_⟩,
    hnodup.filter _, ?_⟩
  · rintro c hc d hd rfl
    have hextracted := of_decide_eq_true (List.mem_filter.mp hd).2
    exact hextracted.2.1 (mem_arguments_ofEvents.mp hc)
  · rintro c hc d hd rfl
    have hstays := mem_callerLocals_ofEvents.mp hd
    rcases List.mem_append.mp hc with hc | hc
    · exact (mem_arguments_ofEvents.mp hc).2 hstays.1
    · exact (of_decide_eq_true (List.mem_filter.mp hc).2).2.2.1 hstays

theorem mem_classes (hone : (ofEvents events).candidates.length ≤ 1)
    (hinside : sel.Contains v.pos → v ∈ (ofEvents events).selectedReads ∨
      v ∈ (ofEvents events).followingWrites → v ∈ (ofEvents events).selectedWrites) :
    v ∈ (ofEvents events).arguments sel ++ (ofEvents events).extractedLocals sel ++
        (ofEvents events).callerLocals sel ↔
      v ∈ (ofEvents events).selectedReads ∨ v ∈ (ofEvents events).selectedWrites := by
  rw [List.mem_append, List.mem_append, mem_arguments_ofEvents, mem_extractedLocals_ofEvents hone,
    mem_callerLocals_ofEvents]
  constructor
  · rintro ((hargument | hextracted) | hstays)
    · exact Or.inl hargument.1
    · exact Or.inr hextracted.1
    · exact Or.inr (hinside hstays.1 (Or.inr hstays.2))
  · intro haccess
    by_cases hargument : (ofEvents events).IsArgument sel v
    · exact Or.inl (Or.inl hargument)
    by_cases hstays : (ofEvents events).StaysInCaller sel v
    · exact Or.inr hstays
    refine Or.inl (Or.inr ⟨?_, hargument, hstays⟩)
    rcases haccess with hread | hwrite
    · apply hinside _ (Or.inl hread)
      by_contra houtside
      exact hargument ⟨hread, houtside⟩
    · exact hwrite

theorem following_of_access {e : Event} {mode : AccessMode} (he : e ∈ events)
    (h : e.Accesses .after ⟨v, mode⟩) :
    v ∈ (ofEvents events).followingReads ∨ v ∈ (ofEvents events).followingWrites := by
  cases mode with
  | write => exact Or.inr ((mem_collected_foldl v events {}).2.2.mpr (Or.inr ⟨e, he, h⟩))
  | read =>
    obtain ⟨l, r, rfl⟩ := List.append_of_mem he
    rw [ofEvents, List.foldl_append, List.foldl_cons]
    generalize l.foldl step {} = s
    have hstep : s.step e = s.count .after ⟨v, .read⟩ e.place := by
      rw [step, h.2, h.1]
    by_cases hwritten : v ∈ s.followingWrites
    · right
      apply (mem_collected_foldl v r (s.step e)).2.2.mpr
      exact Or.inl ((mem_collected_step v s e).2.2.mpr (Or.inl hwritten))
    · left
      apply followingReads_foldl
      simp [hstep, count, hwritten]

theorem exists_selected_access_iff :
    (∃ e ∈ events, ∃ mode, e.Accesses .selected ⟨v, mode⟩) ↔
      v ∈ (ofEvents events).selectedReads ∨ v ∈ (ofEvents events).selectedWrites := by
  obtain ⟨hreads, hwrites, -⟩ := mem_collected_foldl v events {}
  rw [ofEvents, hreads, hwrites]
  constructor
  · rintro ⟨e, he, mode, haccess⟩
    cases mode with
    | read => exact Or.inl (Or.inr ⟨e, he, haccess⟩)
    | write => exact Or.inr (Or.inr ⟨e, he, haccess⟩)
  · rintro ((hnil | ⟨e, he, haccess⟩) | (hnil | ⟨e, he, haccess⟩))
    · cases hnil
    · exact ⟨e, he, .read, haccess⟩
    · cases hnil
    · exact ⟨e, he, .write, haccess⟩

end Locals

namespace Trace

open SyntaxTree

variable {sel : Extent} {a b : Nat} {m : Place} {s : Trace} {k : Sketch}

theorem verdict_classes (s : Trace) (sel : Extent) {ds : List Diagnostic}
    (hds : (ds.any fun d => d.kind = .noEnclosingMethod) = false) :
    (s.verdict sel ds).extractedLocals = (Locals.ofEvents s.events.toList).extractedLocals sel ∧
      (s.verdict sel ds).callerLocals = (Locals.ofEvents s.events.toList).callerLocals sel := by
  rw [verdict, hds]
  exact ⟨rfl, rfl⟩

theorem Located.exists_variable {t : SyntaxTree} (hm : m ∈ t.places) (hl : Located sel m a b s)
    {e : Event} (he : e ∈ s.events.toList) (hlate : ¬ e.phase.Early) {access : Access}
    (hk : e.kind = .name access) :
    access.binding.isVariable = true ∧ ∃ n ∈ t.toList, n.binding = some access.binding := by
  obtain ⟨p, hp, hat⟩ := Event.exists_isAt (hl.late_mem_stream he hlate)
  obtain ⟨c, hc, htracked⟩ := (hat.access hk).1.exists_tracked
  obtain ⟨hbinding, hvariable⟩ := Place.tracked?_eq_some.mp htracked
  refine ⟨hvariable, c.node, node_mem_of_mem_placesBelow (inner_subset hm c ?_), hbinding⟩
  rcases hc with rfl | hc
  · exact hp
  · exact inner_trans hp hc

theorem Located.writes_declared {t : SyntaxTree} (h : Laid 0 0 t) (hm : m ∈ t.places)
    (hl : Located sel m a b s) {d : Place} (hd : d ∈ m.inner)
    (hselected : Phase.among a b d.node.id = .selected) (hkind : d.node.kind = .declarator)
    (hinitialized : d.node.initialized = true) {v : Binding} (hv : d.node.binding = some v)
    (hvariable : v.isVariable = true) :
    v ∈ (Locals.ofEvents s.events.toList).selectedWrites := by
  obtain ⟨nested, -, hleaving⟩ :=
    Event.exists_mem_stream (Phase.among a b) 0 (laid_children h hm).1 hd
  have hstores : d ∈ d.stores := by
    simp [Place.stores, hkind, hinitialized]
  have htracked : d.tracked? = some v := Place.tracked?_eq_some.mpr ⟨hv, hvariable⟩
  have hwrite := hleaving _ (Event.mem_leaving.mpr (Or.inl ⟨d, hstores, v, htracked, rfl⟩))
  apply (Locals.mem_collected_foldl v s.events.toList {}).2.1.mpr
  exact Or.inr ⟨_, hl.stream_subset _ hwrite, hselected, rfl⟩

theorem Located.writes_of_contains (hk : k.DeclaresOnce) (hm : m ∈ k.layout.places)
    (hl : Located sel m a b s) (hoffset : 0 ≤ sel.offset)
    (huncut : ∀ p ∈ m.inner, p.node.id = b → sel.past ≤ p.node.start)
    (hcovers : ∀ d ∈ k.layout.places, sel.Contains d.node.start →
    sel.Covers d.node.start d.node.stop) {e : Event} (he : e ∈ s.events.toList)
      (hlate : ¬ e.phase.Early) {v : Binding} {mode : AccessMode}
    (haccess : e.kind = .name ⟨v, mode⟩) (hin : sel.Contains v.pos) :
    v ∈ (Locals.ofEvents s.events.toList).selectedWrites := by
  have h : Laid 0 0 k.layout := laid_layout k
  obtain ⟨hvariable, n, hn, hv⟩ := hl.exists_variable hm he hlate haccess
  obtain ⟨n', hn', hkind, hinitialized, hv', hpos⟩ :=
    hk.exists_declarator hn hv (Int.le_trans hoffset hin.1)
  obtain ⟨d, hd, rfl⟩ := exists_place_of_mem [] hn'
  have hdcovers := hcovers d hd (hpos ▸ hin)
  have hdin := covered_mem_inner h hm hl.encloses hd hdcovers
  exact hl.writes_declared h hm hdin ((hl.covers_iff h hm huncut hdin).mp hdcovers) hkind
    hinitialized hv' hvariable

/-- If the selection begins with a covered node and ends inside no node, it covers all that begins
in it. -/
theorem covers_of_contains {t : SyntaxTree} (h : Laid 0 0 t) {first d : Place}
    (hfirst : first ∈ t.places) (hcovers : sel.Covers first.node.start first.node.stop)
    (hoffset : sel.offset = first.node.start)
    (huncut : ∀ q ∈ t.places, first.node.id < q.node.id → ¬ sel.EndsInside q.node.start q.node.stop)
    (hd : d ∈ t.places) (hin : sel.Contains d.node.start) :
    sel.Covers d.node.start d.node.stop := by
  obtain ⟨hafter, hbefore⟩ := hin
  have hle : first.node.id ≤ d.node.id := by
    apply Nat.not_lt.mp
    intro hlt
    have := start_lt_of_id_lt h hd hfirst hlt
    omega
  rcases Nat.eq_or_lt_of_le hle with heq | hlt
  · rwa [← place_unique h hfirst hd heq]
  · exact ⟨hafter, Int.not_lt.mp fun hcut => huncut d hd hlt ⟨hbefore, hcut⟩⟩

theorem stop_le_of_siblings {t : SyntaxTree} (h : Laid 0 0 t) {p q : Place} (hp : p ∈ t.places)
    (hq : q ∈ t.places) (hsiblings : p.ancestors = q.ancestors) (hle : p.node.id ≤ q.node.id) :
    p.node.stop ≤ q.node.stop := by
  rcases Nat.eq_or_lt_of_le hle with heq | hlt
  · exact Int.le_of_eq (congrArg (·.node.stop) (place_unique h hp hq heq))
  · have := beyond_of_siblings h hp hq hsiblings hlt
    have := start_le_stop h hq
    omega

end Trace

/-- A parameter is copied into a new local, a second local is declared, and a third variable gets
the copy; behind that, the second local is assigned the third. -/
def dividing : Sketch :=
  let p : Binding := { key := 0, name := "p", kind := .parameter }
  let x : Binding := { key := 1, name := "x" }
  let y : Binding := { key := 2, name := "y" }
  let z : Binding := { key := 3, name := "z" }
  .file [some (.method "m" true [some p] [
    some (.declare (some x) (some (.operation []))),
    some (.declare (some y) (some (.ref (some p)))),
    some (.declare (some z) (some (.operation []))),
      some (.assign false (some x) (some (.ref (some y)))),
    some (.assign false (some z) (some (.ref (some x))))])]

end Extraction
