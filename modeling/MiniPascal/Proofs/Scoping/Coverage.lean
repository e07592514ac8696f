/-
# What an analysis is defined on

An analysis has two tables: one with the levels of variables and one with the procedures of
calls.  A check enters each node of the tree into its table, and nothing else, and
the nodes of a tree that was read are numbered from zero on.

* `isSome_declaredLevel?_iff` : an analysis knows the levels of exactly the occurrences of
  variables;
* `isSome_procedure?_iff` : an analysis knows the procedures of exactly the calls;
* `parse_numbersNodes` : the numbers of the nodes of a tree that was read.
-/
import Mathlib.Data.List.Nodup
import MiniPascal.Proofs.Scoping.Resolution

set_option autoImplicit false

namespace MiniPascal

/-! ## Nodes and their sites -/

/-- The node behind a site with an occurrence of a variable is this occurrence. -/
theorem mem_siteNodes_occurrence {sites : List Site} {v : Variable} :
    .occurrence v ∈ siteNodes sites ↔ ∃ Γ, ⟨Γ, .occurrence v⟩ ∈ sites := by
  rw [siteNodes, List.mem_filterMap]
  constructor
  · rintro ⟨⟨Γ, duty⟩, hs, hnode⟩
    cases duty with
    | fresh name position => cases hnode
    | typed type => cases hnode
    | occurrence w =>
        cases hnode
        exact ⟨Γ, hs⟩
    | call c => cases hnode
  · rintro ⟨Γ, hs⟩
    exact ⟨_, hs, rfl⟩

/-- The node behind a site with a call is this call. -/
theorem mem_siteNodes_call {sites : List Site} {c : Call} :
    .call c ∈ siteNodes sites ↔ ∃ Γ, ⟨Γ, .call c⟩ ∈ sites := by
  rw [siteNodes, List.mem_filterMap]
  constructor
  · rintro ⟨⟨Γ, duty⟩, hs, hnode⟩
    cases duty with
    | fresh name position => cases hnode
    | typed type => cases hnode
    | occurrence v => cases hnode
    | call d =>
        cases hnode
        exact ⟨Γ, hs⟩
  · rintro ⟨Γ, hs⟩
    exact ⟨_, hs, rfl⟩

/-! ## The tables -/

/-- A table with the records of sites is defined on the keys of these records. -/
theorem isSome_lookup_records {β : Type} {record? : Site → Option (NodeId × β)}
    {sites : List Site} {id : NodeId} :
    ((sites.filterMap record?).reverse.lookup id).isSome
      ↔ ∃ s ∈ sites, ∃ x, record? s = some (id, x) := by
  rw [List.lookup_isSome_iff]
  constructor
  · rintro ⟨⟨key, x⟩, hmem, hkey⟩
    obtain rfl : id = key := beq_iff_eq.1 hkey
    rw [List.mem_reverse] at hmem
    obtain ⟨s, hs, hrecord⟩ := List.mem_filterMap.1 hmem
    exact ⟨s, hs, x, hrecord⟩
  · rintro ⟨s, hs, x, hrecord⟩
    refine ⟨(id, x), ?_, beq_self_eq_true id⟩
    rw [List.mem_reverse]
    exact List.mem_filterMap.2 ⟨s, hs, hrecord⟩

/-- **An analysis knows the levels** of exactly the occurrences of variables. -/
theorem isSome_declaredLevel?_iff {tree : Program} {a : Analysis} (h : analyze tree = .ok a)
    (id : NodeId) :
    (a.declaredLevel? id).isSome ↔ ∃ v, .occurrence v ∈ tree.nodes ∧ v.id = id := by
  have hcases := analyze_cases tree
  rw [h] at hcases
  obtain ⟨d, hpasses, hoccurrences, -⟩ := hcases
  have htable : a.occurrences = (tree.sites.filterMap Site.level?).reverse :=
    hoccurrences.trans (hpasses.occurrences.trans (List.append_nil _))
  rw [Analysis.declaredLevel?, htable, isSome_lookup_records]
  constructor
  · rintro ⟨⟨Γ, duty⟩, hs, level, hrecord⟩
    cases duty with
    | fresh name position => cases hrecord
    | typed type => cases hrecord
    | occurrence v =>
        obtain ⟨found, -, heq⟩ := Option.map_eq_some_iff.1 hrecord
        cases heq
        refine ⟨v, ?_, rfl⟩
        exact (siteNodes_program tree).mem_iff.1 (mem_siteNodes_occurrence.2 ⟨Γ, hs⟩)
    | call c => cases hrecord
  · rintro ⟨v, hv, rfl⟩
    obtain ⟨Γ, hs⟩ := mem_siteNodes_occurrence.1 ((siteNodes_program tree).mem_iff.2 hv)
    -- the occurrence obeys the rules, so it has a binding
    obtain ⟨b, level, hbound, -⟩ := obeys_of_analyze h _ hs
    refine ⟨_, hs, level, ?_⟩
    rw [Site.level?, hbound]
    rfl

/-- **An analysis knows the procedures** of exactly the calls. -/
theorem isSome_procedure?_iff {tree : Program} {a : Analysis} (h : analyze tree = .ok a)
    (id : NodeId) :
    (a.procedure? id).isSome ↔ ∃ c, .call c ∈ tree.nodes ∧ c.id = id := by
  have hcases := analyze_cases tree
  rw [h] at hcases
  obtain ⟨d, hpasses, -, hcalls⟩ := hcases
  have htable : a.calls = (tree.sites.filterMap Site.callee?).reverse :=
    hcalls.trans (hpasses.calls.trans (List.append_nil _))
  rw [Analysis.procedure?, htable, isSome_lookup_records]
  constructor
  · rintro ⟨⟨Γ, duty⟩, hs, p, hrecord⟩
    cases duty with
    | fresh name position => cases hrecord
    | typed type => cases hrecord
    | occurrence v => cases hrecord
    | call c =>
        obtain ⟨q, hcallee⟩ := hpasses.known Γ c hs
        rw [hcallee] at hrecord
        cases hrecord
        refine ⟨c, ?_, rfl⟩
        exact (siteNodes_program tree).mem_iff.1 (mem_siteNodes_call.2 ⟨Γ, hs⟩)
  · rintro ⟨c, hc, rfl⟩
    obtain ⟨Γ, hs⟩ := mem_siteNodes_call.1 ((siteNodes_program tree).mem_iff.2 hc)
    obtain ⟨p, hcallee⟩ := hpasses.known Γ c hs
    exact ⟨_, hs, p, hcallee⟩

/-! ## Trees that were read -/

/-- **The numbers of the nodes** of a tree that was read are those from zero on, in the
order of the source text, and they divide among the tables of an analysis: one is
defined on exactly the numbers of the occurrences of variables, and the other one on
exactly the numbers of the calls. -/
theorem parse_numbersNodes {source : String} {tree : Program} (h : parse source = .ok tree) :
    tree.nodes.map Node.id = List.range tree.nodes.length ∧
      ∀ a, analyze tree = .ok a → ∀ id,
        ((a.declaredLevel? id).isSome ↔ ∃ v, .occurrence v ∈ tree.nodes ∧ v.id = id) ∧
        ((a.procedure? id).isSome ↔ ∃ c, .call c ∈ tree.nodes ∧ c.id = id) ∧
        (id < tree.nodes.length ↔ (a.declaredLevel? id).isSome ∨ (a.procedure? id).isSome) ∧
        ¬((a.declaredLevel? id).isSome ∧ (a.procedure? id).isSome) := by
  obtain ⟨ts, p, -, hprogram⟩ := parse_eq_ok_iff.1 h
  have hrange : tree.nodes.map Node.id = List.range tree.nodes.length := by
    have hids := Grammar.nodeIds_eq_range hprogram
    rwa [← tree.map_id_nodes, List.length_map] at hids
  refine ⟨hrange, ?_⟩
  intro a ha id
  have hlevels := isSome_declaredLevel?_iff ha id
  have hprocedures := isSome_procedure?_iff ha id
  refine ⟨hlevels, hprocedures, ?_, ?_⟩
  · rw [hlevels, hprocedures, ← List.mem_range, ← hrange, List.mem_map]
    constructor
    · rintro ⟨n, hn, rfl⟩
      cases n with
      | occurrence v => exact Or.inl ⟨v, hn, rfl⟩
      | call c => exact Or.inr ⟨c, hn, rfl⟩
    · rintro (⟨v, hv, rfl⟩ | ⟨c, hc, rfl⟩)
      · exact ⟨_, hv, rfl⟩
      · exact ⟨_, hc, rfl⟩
  · rintro ⟨hlevel, hprocedure⟩
    obtain ⟨v, hv, rfl⟩ := hlevels.1 hlevel
    obtain ⟨c, hc, hid⟩ := hprocedures.1 hprocedure
    have hdistinct : (tree.nodes.map Node.id).Nodup := hrange ▸ List.nodup_range
    exact absurd (List.inj_on_of_nodup_map hdistinct hc hv hid) nofun

/-- A source text with a call that has a call in front of it, and an assignment. -/
def numberedSource : String :=
  "PROGRAM P; VAR x : REAL; PROCEDURE Q(y : REAL); BEGIN x := y + x END; BEGIN Q(1); Q(x) END."

/-- Its nodes are numbered, and divide among the tables of its analysis. -/
theorem numberedSource_numbersNodes : ∃ tree a, parse numberedSource = .ok tree ∧
    analyze tree = .ok a ∧ tree.nodes.map Node.id = List.range tree.nodes.length ∧
      ∀ id,
        ((a.declaredLevel? id).isSome ↔ ∃ v, .occurrence v ∈ tree.nodes ∧ v.id = id) ∧
        ((a.procedure? id).isSome ↔ ∃ c, .call c ∈ tree.nodes ∧ c.id = id) ∧
        (id < tree.nodes.length ↔ (a.declaredLevel? id).isSome ∨ (a.procedure? id).isSome) ∧
        ¬((a.declaredLevel? id).isSome ∧ (a.procedure? id).isSome) := by
  have haccepts : accepts numberedSource = true := by decide +kernel
  obtain ⟨tree, a, hparse, ha⟩ := exists_analysis haccepts
  obtain ⟨hnumbers, htables⟩ := parse_numbersNodes hparse
  exact ⟨tree, a, hparse, ha, hnumbers, htables a ha⟩

end MiniPascal
