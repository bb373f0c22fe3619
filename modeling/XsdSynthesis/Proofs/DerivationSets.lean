import Mathlib.Data.List.Sort
import Mathlib.Data.List.TakeWhile
import XsdSynthesis.Proofs.Decision
import XsdSynthesis.Proofs.Rendering

/-!
# XsdSynthesis.Proofs.DerivationSets

Sets of derivation methods, from their source text to their XML text. A text is cut at its commas, and
each piece names at most one method, whatever blanks stand around it and whatever the case of its
letters (`Text.SameWord.folded_eq`). The set that a text stands for is decided by the methods that it names
(`setOfText?_iff`), and what is written for it names the same methods, the empty one left out
(`derivation_defaults`).
-/

namespace XsdSynthesis

/-! ## Words -/

namespace Text

/-- A word is some characters with nothing but blanks before and after them. -/
def Padded (word : String) (cs : List Char) : Prop :=
  ∃ before after : List Char, (∀ c ∈ before ++ after, isBlank c = true) ∧
    word.toList = before ++ cs ++ after

/-- Words that differ at most in the blanks around them and in the case of A to Z. -/
def SameWord (word word' : String) : Prop :=
  ∃ cs cs', Padded word cs ∧ Padded word' cs' ∧ cs.map lowerAscii = cs'.map lowerAscii

theorem trim_padded {before cs after : List Char} (hb : ∀ c ∈ before, isBlank c = true)
    (ha : ∀ c ∈ after, isBlank c = true) : trim (before ++ cs ++ after) = trim cs := by
  have hafter : after.dropWhile isBlank = [] := List.dropWhile_eq_nil_iff.2 ha
  unfold trim
  rw [List.append_assoc, List.dropWhile_append_of_pos hb, List.dropWhile_append]
  split
  · rename_i hnil
    rw [hafter, List.isEmpty_iff.1 hnil]
  · rw [List.reverse_append, List.dropWhile_append_of_pos fun c hc => ha c (List.mem_reverse.1 hc)]

/-- Lowering a letter makes no blank, and a blank is no letter. -/
theorem isBlank_lowerAscii (c : Char) : isBlank (lowerAscii c) = isBlank c := by
  unfold lowerAscii
  split
  · rename_i h
    have hlow : 65 ≤ c.toNat := h.1
    have hhigh : c.toNat ≤ 90 := h.2
    have hlowered : (Char.ofNat (c.toNat + 32)).toNat = c.toNat + 32 := by
      have hvalid : (c.toNat + 32).isValidChar := .inl (by omega)
      rw [Char.ofNat, dif_pos hvalid]
      rfl
    have hneither : ∀ n, 65 ≤ n → n ≤ 122 → ∀ c : Char, c.toNat = n → isBlank c = false := by
      intro n hn hn' c hc
      simp only [isBlank, hc]
      simp
      omega
    rw [hneither _ (by omega) (by omega) _ hlowered, hneither _ hlow (by omega) c rfl]
  · rfl

theorem map_lowerAscii_trim (cs : List Char) : (trim cs).map lowerAscii = trim (cs.map lowerAscii) := by
  have hsame : isBlank ∘ lowerAscii = isBlank := funext isBlank_lowerAscii
  rw [trim, trim, List.dropWhile_map, hsame, ← List.map_reverse, List.dropWhile_map, hsame,
    List.map_reverse]

theorem folded_padded {word : String} {cs : List Char} (h : Padded word cs) :
    folded word = String.ofList (trim (cs.map lowerAscii)) := by
  obtain ⟨before, after, hblank, hword⟩ := h
  rw [List.forall_mem_append] at hblank
  rw [folded, hword, trim_padded hblank.1 hblank.2, map_lowerAscii_trim]

theorem SameWord.folded_eq {word word' : String} (h : SameWord word word') :
    folded word = folded word' := by
  obtain ⟨cs, cs', hcs, hcs', hsame⟩ := h
  rw [folded_padded hcs, folded_padded hcs', hsame]

end Text

namespace Xsd.Derivation

variable {text text' word : String} {m : Derivation} {ms set set' members : List Derivation}
  {allowed : Derivation → Bool}

/-! ## The methods that a text names -/

/-- What stands between the commas of a text. -/
def pieces (text : String) : List String := (text.toList.splitOn ',').map String.ofList

/-- A piece names a method: trimmed and lowered it is the method's name, or nothing for the empty
method. -/
def Names (piece : String) (m : Derivation) : Prop :=
  Text.folded piece = m.name ∨ Text.folded piece = "" ∧ m = .empty

/-- A method is named by one of the pieces of a text. -/
def Mentions (text : String) (m : Derivation) : Prop := ∃ piece ∈ pieces text, Names piece m

theorem ofText?_iff : ofText? word = some m ↔ Names word m := by
  unfold ofText? Names
  generalize Text.folded word = folded
  by_cases hempty : folded = ""
  · have hname : "" ≠ m.name := by cases m <;> decide
    simp [hempty, hname, eq_comm]
  · have hfind : methods.find? (·.name == folded) = some m ↔ folded = m.name := by
      constructor
      · intro h
        have hsome := List.find?_some h
        exact (beq_iff_eq.1 hsome).symm
      · rintro rfl
        cases m <;> rfl
    simpa [hempty] using hfind

theorem Names.unique {m' : Derivation} (h : Names word m) (h' : Names word m') : m = m' :=
  Option.some.inj ((ofText?_iff.2 h).symm.trans (ofText?_iff.2 h'))

theorem names_congr {word' : String} (h : Text.SameWord word word') :
    Names word m ↔ Names word' m := by
  rw [Names, Names, h.folded_eq]

theorem mapM_ofText? {words : List String} :
    words.mapM ofText? = some ms ↔ List.Forall₂ Names words ms := by
  induction words generalizing ms with
  | nil => simp [eq_comm]
  | cons word rest ih =>
    simp only [List.mapM_cons, bind, Option.bind_eq_some_iff, pure, Option.some.injEq, ih, ofText?_iff,
      List.forall₂_cons_left_iff]
    constructor
    · rintro ⟨m, hm, others, hothers, rfl⟩
      exact ⟨m, others, hm, hothers, rfl⟩
    · rintro ⟨m, others, hm, hothers, rfl⟩
      exact ⟨m, hm, others, hothers, rfl⟩

/-- The methods of a set stand in the order in which the methods are listed. -/
def Ascending (set : List Derivation) : Prop := set.Pairwise fun m m' => m.ctorIdx < m'.ctorIdx

instance : Decidable (Ascending set) :=
  inferInstanceAs (Decidable (set.Pairwise fun m m' => m.ctorIdx < m'.ctorIdx))

theorem ascending_sorted (ms : List Derivation) : Ascending (sorted ms) :=
  List.Pairwise.sublist List.filter_sublist (by decide : Ascending methods)

theorem Ascending.eq (h : Ascending set) (h' : Ascending set') (hm : ∀ m, m ∈ set ↔ m ∈ set') :
    set = set' := by
  have : Std.Irrefl fun m m' : Derivation => m.ctorIdx < m'.ctorIdx := ⟨fun m => Nat.lt_irrefl _⟩
  have : Std.Antisymm fun m m' : Derivation => m.ctorIdx < m'.ctorIdx :=
    ⟨fun m m' hlt hgt => absurd hgt (Nat.lt_asymm hlt)⟩
  exact List.Pairwise.eq_of_mem_iff h h' hm

theorem eq_all {set : List Derivation} (hs : Ascending set) (ha : all ∈ set)
    (honly : ∀ m ∈ set, m = all) : set = [all] := by
  refine hs.eq (by decide) fun m => ?_
  rw [List.mem_singleton]
  exact ⟨honly m, fun h => h ▸ ha⟩

/-- The condition on which a set is refused: `all` is one of several methods. -/
theorem all_among_several :
    (all ∈ sorted ms ∧ 1 < (sorted ms).length) ↔ all ∈ ms ∧ ∃ m ∈ ms, m ≠ all := by
  rw [mem_sorted]
  refine and_congr_right fun ha => ?_
  constructor
  · intro hlength
    by_contra! honly
    have hone : sorted ms = [all] :=
      eq_all (ascending_sorted ms) ((mem_sorted ms _).2 ha) fun m hm =>
        honly m ((mem_sorted ms m).1 hm)
    rw [hone] at hlength
    exact absurd hlength (by decide)
  · rintro ⟨m, hm, hne⟩
    have ha' := (mem_sorted ms _).2 ha
    have hm' := (mem_sorted ms m).2 hm
    match hs : sorted ms with
    | [] =>
      rw [hs] at ha'
      cases ha'
    | [one] =>
      rw [hs, List.mem_singleton] at ha' hm'
      exact absurd (hm'.trans ha'.symm) hne
    | _ :: _ :: _ => simp

theorem mem_iff_mentions (h : List.Forall₂ Names (pieces text) ms) (m : Derivation) :
    m ∈ ms ↔ Mentions text m := by
  constructor
  · intro hm
    exact Tables.exists_of_mem_right h hm
  · rintro ⟨piece, hp, hname⟩
    obtain ⟨m', hm', hname'⟩ := Tables.exists_of_mem_left h hp
    exact hname.unique hname' ▸ hm'

/-- **The set that a text stands for**: each piece names a method, `all` no other beside it, and the
set has the methods that are named, in ascending order. -/
theorem setOfText?_iff :
    setOfText? text = some set ↔
      ((∀ piece ∈ pieces text, ∃ m, Names piece m) ∧
        (Mentions text all → ∀ m, Mentions text m → m = all)) ∧
        Ascending set ∧ ∀ m, m ∈ set ↔ Mentions text m := by
  unfold setOfText?
  rw [show (text.toList.splitOn ',').map String.ofList = pieces text from rfl]
  constructor
  · intro h
    obtain ⟨ms, hms, h⟩ := Option.bind_eq_some_iff.1 h
    have hnames := mapM_ofText?.1 hms
    have hmem := mem_iff_mentions hnames
    simp only [all_among_several] at h
    split at h
    · cases h
    · rename_i hseveral
      cases h
      refine ⟨⟨fun piece hp => ?_, fun ha m hm => ?_⟩, ascending_sorted ms, fun m => ?_⟩
      · obtain ⟨m, _, hm⟩ := Tables.exists_of_mem_left hnames hp
        exact ⟨m, hm⟩
      · by_contra hne
        exact hseveral ⟨(hmem _).2 ha, m, (hmem m).2 hm, hne⟩
      · rw [mem_sorted, hmem]
  · rintro ⟨⟨hnames, honly⟩, hasc, hset⟩
    obtain ⟨ms, hms⟩ := Tables.exists_forall₂ hnames
    have hmem := mem_iff_mentions hms
    have hsorted : sorted ms = set :=
      (ascending_sorted ms).eq hasc fun m => by rw [mem_sorted, hmem, hset]
    refine Option.bind_eq_some_iff.2 ⟨ms, mapM_ofText?.2 hms, ?_⟩
    simp only [all_among_several]
    rw [if_neg, hsorted]
    · rfl
    · rintro ⟨ha, m, hm, hne⟩
      exact hne (honly ((hmem _).1 ha) m ((hmem m).1 hm))

/-- Some piece stands in every text, so no set is empty. -/
theorem setOfText?_ne_nil (h : setOfText? text = some set) : set ≠ [] := by
  obtain ⟨⟨hnames, _⟩, _, hset⟩ := setOfText?_iff.1 h
  obtain ⟨first, others, hsplit⟩ :=
    List.exists_cons_of_ne_nil (List.splitOn_ne_nil ',' text.toList)
  have hp : String.ofList first ∈ pieces text := by
    rw [pieces, hsplit]
    exact List.mem_cons_self
  obtain ⟨m, hm⟩ := hnames _ hp
  exact List.ne_nil_of_mem ((hset m).2 ⟨_, hp, hm⟩)

/-- Texts with the same pieces, in any order and number, each up to blanks and case. -/
def SamePieces (text text' : String) : Prop :=
  (∀ piece ∈ pieces text, ∃ piece' ∈ pieces text', Text.SameWord piece piece') ∧
    ∀ piece' ∈ pieces text', ∃ piece ∈ pieces text, Text.SameWord piece piece'

theorem SamePieces.mentions_iff (h : SamePieces text text') (m : Derivation) :
    Mentions text m ↔ Mentions text' m := by
  constructor
  · rintro ⟨piece, hp, hm⟩
    obtain ⟨piece', hp', hsame⟩ := h.1 piece hp
    exact ⟨piece', hp', (names_congr hsame).1 hm⟩
  · rintro ⟨piece', hp', hm⟩
    obtain ⟨piece, hp, hsame⟩ := h.2 piece' hp'
    exact ⟨piece, hp, (names_congr hsame).2 hm⟩

theorem SamePieces.names_iff (h : SamePieces text text') :
    (∀ piece ∈ pieces text, ∃ m, Names piece m) ↔ ∀ piece ∈ pieces text', ∃ m, Names piece m := by
  constructor
  · intro hnames piece' hp'
    obtain ⟨piece, hp, hsame⟩ := h.2 piece' hp'
    obtain ⟨m, hm⟩ := hnames piece hp
    exact ⟨m, (names_congr hsame).1 hm⟩
  · intro hnames piece hp
    obtain ⟨piece', hp', hsame⟩ := h.1 piece hp
    obtain ⟨m, hm⟩ := hnames piece' hp'
    exact ⟨m, (names_congr hsame).2 hm⟩

theorem SamePieces.setOfText?_eq (h : SamePieces text text') :
    setOfText? text = setOfText? text' := by
  refine Option.ext fun set => ?_
  simp only [setOfText?_iff, h.names_iff, h.mentions_iff]

/-! ## The text that is written -/

/-- A written default and its source text: nothing where the source names the empty method only,
`#all` where it names `all`, and else the names of some of the given methods, in their order and one
blank apart, which are those that the source names besides the empty one. -/
def Writes (members : List Derivation) (text written : String) : Prop :=
  (written = "" ∧ ∀ m, Mentions text m ↔ m = empty) ∨
    (written = "#all" ∧ ∀ m, Mentions text m ↔ m = all) ∨
      ∃ ms : List Derivation, ms ≠ [] ∧ ms.Sublist members ∧
        written = " ".intercalate (ms.map name) ∧ ∀ m, m ≠ empty → (Mentions text m ↔ m ∈ ms)

theorem token_eq_name (he : m ≠ empty) (ha : m ≠ all) : m.token = m.name := by
  cases m with
  | empty => exact absurd rfl he
  | all => exact absurd rfl ha
  | _ => rfl

theorem writes_setText (h : setOfText? text = some set) (hallowed : set.all allowed = true) :
    Writes (methods.filter fun m => allowed m ∧ m ≠ empty ∧ m ≠ all) text (setText set) := by
  obtain ⟨⟨_, honly⟩, hasc, hset⟩ := setOfText?_iff.1 h
  by_cases ha : all ∈ set
  · have hone : set = [all] := eq_all hasc ha fun m hm => honly ((hset _).1 ha) m ((hset m).1 hm)
    refine .inr (.inl ⟨by rw [hone]; rfl, fun m => ?_⟩)
    rw [← hset, hone, List.mem_singleton]
  · rw [setText, tokens_eq]
    cases hms : set.filter (· != empty) with
    | nil =>
      have hempty : ∀ m ∈ set, m = empty := by simpa [List.filter_eq_nil_iff] using hms
      refine .inl ⟨rfl, fun m => ?_⟩
      rw [← hset]
      constructor
      · exact hempty m
      · rintro rfl
        obtain ⟨m, hm⟩ := List.exists_mem_of_ne_nil set (setOfText?_ne_nil h)
        exact hempty m hm ▸ hm
    | cons first others =>
      rw [← hms]
      refine .inr (.inr ⟨_, List.ne_nil_of_mem (hms ▸ List.mem_cons_self), ?_, ?_, fun m hm => ?_⟩)
      · have hsorted : set = sorted set :=
          hasc.eq (ascending_sorted set) fun m => (mem_sorted set m).symm
        rw [hsorted, sorted, List.filter_filter]
        refine List.monotone_filter_right _ fun m hm => ?_
        simp only [Bool.and_eq_true, bne_iff_ne, List.contains_iff_mem] at hm
        simp only [decide_eq_true_eq]
        exact ⟨List.all_eq_true.1 hallowed m hm.2, hm.1, fun h => ha (h ▸ hm.2)⟩
      · congr 1
        refine List.map_congr_left fun m hm => ?_
        obtain ⟨hm, hne⟩ := List.mem_filter.1 hm
        exact token_eq_name (by simpa using hne) fun h => ha (h ▸ hm)
      · rw [← hset, List.mem_filter]
        simp [hm]

end Xsd.Derivation

section Written

open Xsd Conversion

variable {j : Json} {classifier : Classifier} {options : Options} {d : Document}

/-- A derivation default of a converted document comes from an attribute that the schema declares and
that is accepted. -/
theorem declared_of_attribute? {source : Source} {set : List Derivation} {name : String}
    (h : Yields source d) (hset : d.attribute? name = some (.inr set)) :
    ∃ text, (name, text) ∈ declaredAttributes source.schema ∧
      Derivation.setOfText? text = some set ∧ accepts source.options name text = true := by
  obtain ⟨text, hm, hv⟩ := (h.attributes _ _).1 hset
  refine ⟨text, hm, ?_, h.accepted _ hm⟩
  unfold attributeValue? at hv
  split at hv
  · obtain ⟨_, _, hv⟩ := Option.map_eq_some_iff.1 hv
    cases hv
  · obtain ⟨_, _, hv⟩ := Option.map_eq_some_iff.1 hv
    cases hv
  · obtain ⟨set', hs, hv⟩ := Option.map_eq_some_iff.1 hv
    cases hv
    exact hs
  · obtain ⟨set', hs, hv⟩ := Option.map_eq_some_iff.1 hv
    cases hv
    exact hs
  · cases hv

/-- **Derivation defaults are canonical, and valid in XML Schema.** A text stands for a set exactly if
each piece names a method and `all` is named alone. The set is not empty and has, in order, just
the methods that are named: it depends on those only, and so is the same for texts with the same pieces
in any order and number, up to blanks and case. If a document is made, what is written for each
default is the canonical text of the set that the schema declares: empty, `#all`, or names of methods
that XML Schema has for that default. -/
theorem derivation_defaults :
    (∀ text : String,
      ((∃ set, Derivation.setOfText? text = some set) ↔
        (∀ piece ∈ Derivation.pieces text, ∃ m, Derivation.Names piece m) ∧
          (Derivation.Mentions text .all → ∀ m, Derivation.Mentions text m → m = .all)) ∧
      (∀ set, Derivation.setOfText? text = some set →
        set ≠ [] ∧ Derivation.Ascending set ∧ ∀ m, m ∈ set ↔ Derivation.Mentions text m) ∧
      (∀ text' set set', Derivation.setOfText? text = some set →
        Derivation.setOfText? text' = some set' →
        (∀ m, Derivation.Mentions text m ↔ Derivation.Mentions text' m) → set = set') ∧
      ∀ text', Derivation.SamePieces text text' →
        Derivation.setOfText? text = Derivation.setOfText? text') ∧
    ∀ (j : Json) (classifier : Classifier) (options : Options) (d : Document), j.Distinct →
      convertJson j classifier options = .ok d → ∃ s, Schema.ofJson? j = .ok s ∧
        (∀ written, ("blockDefault", written) ∈ d.attributesXml →
          ∃ text, ("BlockDefault", text) ∈ declaredAttributes s ∧
            Derivation.Writes [.substitution, .extension, .restriction] text written) ∧
        ∀ written, ("finalDefault", written) ∈ d.attributesXml →
          ∃ text, ("FinalDefault", text) ∈ declaredAttributes s ∧
            Derivation.Writes [.extension, .restriction, .list, .union] text written := by
  refine ⟨fun text => ⟨⟨?_, ?_⟩, ?_, ?_, fun text' h => h.setOfText?_eq⟩, ?_⟩
  · rintro ⟨set, h⟩
    exact (Derivation.setOfText?_iff.1 h).1
  · intro hnames
    obtain ⟨ms, hms⟩ := Tables.exists_forall₂ hnames.1
    refine ⟨Derivation.sorted ms, Derivation.setOfText?_iff.2
      ⟨hnames, Derivation.ascending_sorted ms, fun m => ?_⟩⟩
    rw [Derivation.mem_sorted, Derivation.mem_iff_mentions hms]
  · intro set h
    obtain ⟨_, hasc, hset⟩ := Derivation.setOfText?_iff.1 h
    exact ⟨Derivation.setOfText?_ne_nil h, hasc, hset⟩
  · intro text' set set' h h' hsame
    obtain ⟨_, hasc, hset⟩ := Derivation.setOfText?_iff.1 h
    obtain ⟨_, hasc', hset'⟩ := Derivation.setOfText?_iff.1 h'
    exact hasc.eq hasc' fun m => by rw [hset, hset', hsame]
  · intro j classifier options d hj h
    obtain ⟨s, hs, hyields⟩ := (convertJson_ok_iff hj).1 h
    have hnames := Document.names_attributesXml (convertJson_bindsPrefixes hj h).1
    obtain ⟨_, _, hblock, hfinal⟩ := Document.lookup_defaults d
    refine ⟨s, hs, fun written hw => ?_, fun written hw => ?_⟩
    · rw [Tables.lookup_of_mem hnames hw] at hblock
      obtain ⟨set, hset, hwritten⟩ := Option.map_eq_some_iff.1 hblock.symm
      have hattribute : d.attribute? "BlockDefault" = some (.inr set) :=
        congrArg (Option.map Sum.inr) hset
      obtain ⟨text, hm, htext, haccepted⟩ := declared_of_attribute? hyields hattribute
      have hallowed : set.all Derivation.mayBlock = true := by
        simpa [accepts, htext, Option.filter] using haccepted
      exact ⟨text, hm, hwritten ▸ Derivation.writes_setText htext hallowed⟩
    · rw [Tables.lookup_of_mem hnames hw] at hfinal
      obtain ⟨set, hset, hwritten⟩ := Option.map_eq_some_iff.1 hfinal.symm
      have hattribute : d.attribute? "FinalDefault" = some (.inr set) :=
        congrArg (Option.map Sum.inr) hset
      obtain ⟨text, hm, htext, haccepted⟩ := declared_of_attribute? hyields hattribute
      have hallowed : set.all Derivation.mayBeFinal = true := by
        simpa [accepts, htext, Option.filter] using haccepted
      exact ⟨text, hm, hwritten ▸ Derivation.writes_setText htext hallowed⟩

/-- A root without properties that declares both defaults. -/
def defaultsSchema : Json :=
  .obj [(Spelling.documentAttributes, .obj [("BlockDefault", .str " Restriction,extension,RESTRICTION"),
    ("FinalDefault", .str "all")]), ("properties", .obj [])]

theorem derivation_defaults_defaultsSchema :
    defaultsSchema.Distinct ∧ ∃ d s, convertJson defaultsSchema complexRoot {} = .ok d ∧
      Schema.ofJson? defaultsSchema = .ok s ∧
      d.attributesXml.lookup "blockDefault" = some "extension restriction" ∧
      ∃ text, ("BlockDefault", text) ∈ declaredAttributes s ∧
        Derivation.Writes [.substitution, .extension, .restriction] text "extension restriction" := by
  have hdistinct : defaultsSchema.Distinct := Json.distinct_of_merged (by rfl)
  have hrun : (convertJson defaultsSchema complexRoot {}).toOption.any
      (fun d => d.attributesXml.lookup "blockDefault" == some "extension restriction") = true := by
    decide +kernel
  obtain ⟨d, hd, hwritten⟩ := Checks.exists_of_any hrun
  have hlookup := beq_iff_eq.1 hwritten
  obtain ⟨s, hs, hblock, _⟩ := derivation_defaults.2 _ _ _ _ hdistinct hd
  exact ⟨hdistinct, d, s, hd, hs, hlookup, hblock _ (Tables.mem_of_lookup hlookup)⟩

end Written
end XsdSynthesis
