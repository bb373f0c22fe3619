import XsdSynthesis.Proofs.Capture

/-!
# XsdSynthesis.Proofs.NamespaceTable

The table of prefixes, decided by what is declared. The built-in namespaces are added one after another,
each to a table that the one before may have extended. They share neither prefix nor namespace, so
whether one has room and whether it is missing can be read off the declarations alone
(`foldlM_addBuiltIn_ok`), and with that `applyNamespaces` is decided (`applyNamespaces_iff`).
-/

namespace XsdSynthesis

open Xsd

namespace Conversion

variable {source : Source} {l l' : Ledger} {table table' declared added : List (String × String)}
  {binding other : String × String}

/-- A binding has room in a table: its namespace is bound already, or its prefix is free. -/
def HasRoom (table : List (String × String)) (binding : String × String) : Prop :=
  binding.2 ∈ table.map Prod.snd ∨ binding.1 ∉ table.map Prod.fst

/-- Those of the given bindings whose namespace a table does not bind. -/
def missing (table added : List (String × String)) : List (String × String) :=
  added.filter fun binding => binding.2 ∉ table.map Prod.snd

theorem addBuiltIn_ok_iff :
    addBuiltIn table binding = .ok table' ↔
      HasRoom table binding ∧ table' = table ++ missing table [binding] := by
  rw [addBuiltIn_ok]
  by_cases hu : binding.2 ∈ table.map Prod.snd
  · have hnone : missing table [binding] = [] := by
      rw [missing, List.filter_cons_of_neg (by simpa using hu), List.filter_nil]
    simp [HasRoom, hu, hnone]
  · have hone : missing table [binding] = [binding] := by
      rw [missing, List.filter_cons_of_pos (by simpa using hu), List.filter_nil]
    simp [HasRoom, hu, hone]

/-- What is added for one binding makes no difference to another one that shares nothing with it. -/
theorem mem_snd_append_missing (h : other.2 ≠ binding.2) :
    other.2 ∈ (table ++ missing table [binding]).map Prod.snd ↔ other.2 ∈ table.map Prod.snd := by
  rw [List.map_append, List.mem_append, or_iff_left]
  intro hm
  obtain ⟨b, hb, heq⟩ := List.mem_map.1 hm
  obtain rfl := List.mem_singleton.1 (List.mem_of_mem_filter hb)
  exact h heq.symm

theorem hasRoom_append_missing (hp : other.1 ≠ binding.1) (hu : other.2 ≠ binding.2) :
    HasRoom (table ++ missing table [binding]) other ↔ HasRoom table other := by
  have hfree : other.1 ∈ (table ++ missing table [binding]).map Prod.fst ↔
      other.1 ∈ table.map Prod.fst := by
    rw [List.map_append, List.mem_append, or_iff_left]
    intro hm
    obtain ⟨b, hb, heq⟩ := List.mem_map.1 hm
    obtain rfl := List.mem_singleton.1 (List.mem_of_mem_filter hb)
    exact hp heq.symm
  rw [HasRoom, HasRoom, mem_snd_append_missing hu, hfree]

/-- **Bindings that share nothing are added independently**: each has room in the table to begin
with, and those whose namespace is missing there come after it, in order. -/
theorem foldlM_addBuiltIn_ok (hp : (added.map Prod.fst).Nodup) (hu : (added.map Prod.snd).Nodup) :
    added.foldlM addBuiltIn table = .ok table' ↔
      (∀ b ∈ added, HasRoom table b) ∧ table' = table ++ missing table added := by
  induction added generalizing table with
  | nil =>
    rw [List.foldlM_nil, Checks.pure_ok, missing, List.filter_nil, List.append_nil]
    exact ⟨fun h => ⟨nofun, h.symm⟩, fun h => h.2.symm⟩
  | cons b rest ih =>
    rw [List.map_cons, List.nodup_cons] at hp hu
    have hapart : ∀ c ∈ rest, c.1 ≠ b.1 ∧ c.2 ≠ b.2 := by
      intro c hc
      refine ⟨fun h => hp.1 ?_, fun h => hu.1 ?_⟩
      · rw [← h]
        exact List.mem_map_of_mem hc
      · rw [← h]
        exact List.mem_map_of_mem hc
    -- the rest finds the same room and misses the same namespaces after `b` as before it
    have hroom : (∀ c ∈ rest, HasRoom (table ++ missing table [b]) c) ↔
        ∀ c ∈ rest, HasRoom table c :=
      forall₂_congr fun c hc => hasRoom_append_missing (hapart c hc).1 (hapart c hc).2
    have hmissing : missing (table ++ missing table [b]) rest = missing table rest := by
      refine List.filter_congr fun c hc => ?_
      rw [decide_eq_decide, mem_snd_append_missing (hapart c hc).2]
    have hcons : missing table (b :: rest) = missing table [b] ++ missing table rest :=
      List.filter_append [b] rest
    rw [List.foldlM_cons, Checks.bind_ok, List.forall_mem_cons, hcons]
    constructor
    · rintro ⟨between, hadd, hrest⟩
      obtain ⟨hb, rfl⟩ := addBuiltIn_ok_iff.1 hadd
      obtain ⟨hall, rfl⟩ := (ih hp.2 hu.2).1 hrest
      rw [hmissing, List.append_assoc]
      exact ⟨⟨hb, hroom.1 hall⟩, rfl⟩
    · rintro ⟨⟨hb, hall⟩, rfl⟩
      refine ⟨_, addBuiltIn_ok_iff.2 ⟨hb, rfl⟩, (ih hp.2 hu.2).2 ⟨hroom.2 hall, ?_⟩⟩
      rw [hmissing, List.append_assoc]

/-- Declarations that a table can be made of: each prefix is empty or a name, and the built-in
namespaces have room. -/
structure Tabulates (declared : List (String × String)) : Prop where
  named : ∀ p ∈ declared.map Prod.fst, p = "" ∨ Xml.isName p = true
  room : ∀ b ∈ builtInNamespaces, HasRoom declared b

theorem namespaceTable_ok :
    namespaceTable declared = .ok table ↔
      Tabulates declared ∧ table = declared ++ missing declared builtInNamespaces := by
  have hadded : builtInNamespaces.foldlM addBuiltIn declared = .ok table ↔
      (∀ b ∈ builtInNamespaces, HasRoom declared b) ∧
        table = declared ++ missing declared builtInNamespaces :=
    foldlM_addBuiltIn_ok (by decide) (by decide)
  constructor
  · intro h
    obtain ⟨_, hchecked, h⟩ := Checks.bind_ok.1 h
    obtain ⟨hroom, htable⟩ := hadded.1 h
    exact ⟨⟨checkPrefixes_ok.1 hchecked, hroom⟩, htable⟩
  · rintro ⟨⟨hnamed, hroom⟩, htable⟩
    exact Checks.bind_ok.2 ⟨(), checkPrefixes_ok.2 hnamed, hadded.2 ⟨hroom, htable⟩⟩

/-- Each built-in namespace is declared, or added because it is missing. -/
theorem bound_of_builtIn (hb : binding ∈ added) :
    binding.2 ∈ (table ++ missing table added).map Prod.snd := by
  rw [List.map_append, List.mem_append]
  by_cases hu : binding.2 ∈ table.map Prod.snd
  · exact .inl hu
  · exact .inr (List.mem_map_of_mem (List.mem_filter.2 ⟨hb, by simpa using hu⟩))

theorem applyNamespaces_eq_ok :
    applyNamespaces source l = (.ok (), l') ↔
      ∃ table, namespaceTable (declaredNamespaces source.schema) = .ok table ∧
        l' = { l.emit (.namespacesBound table.length) with
          document := { l.document with namespaces := table } } := by
  unfold applyNamespaces
  rw [bind_lift_ok]
  refine exists_congr fun table => and_congr_right fun _ => ?_
  rw [bind_emit_ok, amend, update, Prod.mk.injEq]
  exact ⟨fun h => h.2.symm, fun h => ⟨rfl, h.symm⟩⟩

/-- A table that is refused leaves everything as it was. -/
theorem applyNamespaces_error {e : Problem} (h : applyNamespaces source l = (.error e, l')) :
    l' = l := by
  cases ht : namespaceTable (declaredNamespaces source.schema) with
  | error problem =>
    have hstop : applyNamespaces source l = (.error problem, l) := by
      rw [applyNamespaces, ht]
      rfl
    rw [hstop] at h
    exact (Prod.mk.inj h).2.symm
  | ok table =>
    rw [applyNamespaces_eq_ok.2 ⟨table, ht, rfl⟩] at h
    cases h

end Conversion

namespace Xsd.Document

/-- The prefixes of a document differ, and prefixes and namespaces are found by each other. -/
structure FindsBindings (d : Document) : Prop where
  distinct : (d.namespaces.map Prod.fst).Nodup
  prefixOf : ∀ uri ∈ d.namespaces.map Prod.snd,
    ∃ p, d.prefixOf? uri = some p ∧ d.namespaceOf? p = some uri
  namespaceOf : ∀ b ∈ d.namespaces, d.namespaceOf? b.1 = some b.2

theorem findsBindings_of_nodup {d : Document} (h : (d.namespaces.map Prod.fst).Nodup) :
    d.FindsBindings := by
  refine ⟨h, fun uri hu => ?_, fun b hb => Tables.lookup_of_mem h hb⟩
  obtain ⟨p, hp⟩ := exists_prefixOf? hu
  exact ⟨p, hp, Tables.lookup_of_mem h (mem_of_prefixOf? hp)⟩

end Xsd.Document

namespace Conversion

variable {source : Source}

/-- **The table of prefixes is complete and unambiguous.** What is declared binds no prefix twice. Then
it can be made into a table exactly if each prefix is empty or a name and each built-in
namespace is declared or finds its prefix free. The document then has what is declared, followed by the
built-in namespaces that are missing there, and nothing else of it changes; all its
prefixes differ, it binds every built-in namespace, and prefixes and namespaces are found by each
other. If no table can be made, the ledger stays as it was. -/
theorem applyNamespaces_iff (hn : ((declaredNamespaces source.schema).map Prod.fst).Nodup)
    (l : Ledger) :
    ((∃ l', applyNamespaces source l = (.ok (), l')) ↔
      (∀ p ∈ (declaredNamespaces source.schema).map Prod.fst, p = "" ∨ Xml.isName p = true) ∧
        ∀ b ∈ builtInNamespaces, b.2 ∈ (declaredNamespaces source.schema).map Prod.snd ∨
          b.1 ∉ (declaredNamespaces source.schema).map Prod.fst) ∧
      (∀ l', applyNamespaces source l = (.ok (), l') →
        l'.document = { l.document with
          namespaces := declaredNamespaces source.schema ++ builtInNamespaces.filter
            fun b => b.2 ∉ (declaredNamespaces source.schema).map Prod.snd } ∧
        l'.document.FindsBindings ∧
        ∀ b ∈ builtInNamespaces, b.2 ∈ l'.document.namespaces.map Prod.snd) ∧
      ∀ e l', applyNamespaces source l = (.error e, l') → l' = l := by
  refine ⟨⟨?_, ?_⟩, ?_, fun e l' => applyNamespaces_error⟩
  · rintro ⟨l', h⟩
    obtain ⟨table, htable, _⟩ := applyNamespaces_eq_ok.1 h
    obtain ⟨⟨hnamed, hroom⟩, _⟩ := namespaceTable_ok.1 htable
    exact ⟨hnamed, hroom⟩
  · rintro ⟨hnamed, hroom⟩
    exact ⟨_, applyNamespaces_eq_ok.2 ⟨_, namespaceTable_ok.2 ⟨⟨hnamed, hroom⟩, rfl⟩, rfl⟩⟩
  · intro l' h
    obtain ⟨table, htable, rfl⟩ := applyNamespaces_eq_ok.1 h
    have hfit : PrefixesFit table := (prefixesFit_namespaceTable hn htable).1
    obtain ⟨_, rfl⟩ := namespaceTable_ok.1 htable
    exact ⟨rfl, Document.findsBindings_of_nodup hfit.distinct, fun b hb => bound_of_builtIn hb⟩

/-- A schema that declares the given namespaces and nothing else. -/
def declaring (bindings : List (String × String)) : Source :=
  ⟨.mk [.namespaces bindings], (Classification.new "Message" true).classifier, {}⟩

/-- A default namespace, and XML Schema under a prefix of its own. -/
def declaringSchema : Source := declaring [("", "urn:orders"), ("xs", schemaNamespace)]

/-- Only the instance namespace is added, and XML Schema is found by the declared prefix. -/
theorem applyNamespaces_declaring :
    ∃ l', applyNamespaces declaringSchema {} = (.ok (), l') ∧
      l'.document.namespaces =
        [("", "urn:orders"), ("xs", schemaNamespace), ("xsi", instanceNamespace)] ∧
      l'.document.prefixOf? schemaNamespace = some "xs" := by
  have hdistinct : ((declaredNamespaces declaringSchema.schema).map Prod.fst).Nodup := by decide
  obtain ⟨hiff, hok, _⟩ := applyNamespaces_iff hdistinct {}
  obtain ⟨l', h⟩ := hiff.2 (by decide)
  refine ⟨l', h, ?_⟩
  rw [(hok l' h).1]
  decide

end Conversion
end XsdSynthesis
