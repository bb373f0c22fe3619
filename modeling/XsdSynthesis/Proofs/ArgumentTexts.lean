import Mathlib.Data.List.TakeWhile
import XsdSynthesis.CommandLine.Arguments

/-!
# XsdSynthesis.Proofs.ArgumentTexts

Arguments for settings. Whatever settings a conversion is to have, there are arguments that ask for just
them, if only paths are not empty and the depth is a number of 64 bits (`ofArguments_arguments`).
-/

namespace XsdSynthesis
namespace CommandLine

/-! ## Spelling settings -/

/-- The text of a long option with its value. -/
def longOption (name value : String) : String := "--" ++ name ++ "=" ++ value

/-- The value of the option for a format. -/
def Format.option : Format → String
  | .xsd => "xsd"
  | .json => "json"

/-- The options for settings, each with its value. -/
def Settings.options (s : Settings) : List String :=
  [longOption "metadata" s.metadata] ++ ((s.output.map (longOption "output")).toList ++
    ((s.messageName.map (longOption "message-name")).toList ++
    ([longOption "max-depth" (toString s.maxDepth)] ++
    ((if s.strictAttributes then ["--strict-schema-attributes"] else []) ++
    ([longOption "format" s.format.option] ++ if s.verbose then ["--verbose"] else [])))))

/-- Arguments for settings: the options, and the input after `--`. -/
def Settings.arguments (s : Settings) : List String := "convert" :: (s.options ++ ["--", s.input])

/-- Whether settings can be spelled: no path is empty, and the depth is a number of 64 bits. -/
structure Settings.Spellable (s : Settings) : Prop where
  input : s.input ≠ ""
  metadata : s.metadata ≠ ""
  output : s.output ≠ some ""
  maxDepth : s.maxDepth < Nat.pow 2 64

/-! ## Reading what was spelled -/

theorem depth?_toString {n : Nat} (h : n < Nat.pow 2 64) : depth? (toString n) = some n := by
  have htext : (toString n).toList = Nat.toDigits 10 n := Nat.toList_repr
  have hdigit : ∀ c ∈ Nat.toDigits 10 n, c.isDigit = true := fun c hc =>
    Nat.isDigit_of_mem_toDigits (by decide) (by decide) hc
  have hvalue := Nat.ofDigitChars_ten_toDigits (n := n)
  rw [Nat.ofDigitChars_eq_foldl] at hvalue
  rw [depth?, htext]
  split
  · rename_i rest heq
    exact absurd (hdigit '+' (heq ▸ List.mem_cons_self)) (by decide)
  · rw [if_pos ⟨Nat.toDigits_ne_nil, List.all_eq_true.2 hdigit⟩, hvalue]
    exact if_pos h

theorem ofText_longOption {name value : String} (h : '=' ∉ name.toList) :
    Argument.ofText (longOption name value) = .long name (some value) := by
  have htext : (longOption name value).toList =
      '-' :: '-' :: (name.toList ++ '=' :: value.toList) := by
    simp [longOption]
  have hname : ∀ c ∈ name.toList, (c != '=') = true := by
    intro c hc
    rw [bne_iff_ne]
    rintro rfl
    exact h hc
  rw [Argument.ofText, htext]
  simp [List.takeWhile_append_of_pos hname, List.dropWhile_append_of_pos hname]

namespace Draft

variable {d d' d'' : Draft} {name value text : String} {slot : Slot} {args args' : List String}

/-- Arguments are read to a draft from another one, whatever comes after them. -/
def Reads (d : Draft) (args : List String) (d' : Draft) : Prop :=
  ∀ rest, d.arguments none (args ++ rest) = d'.arguments none rest

theorem Reads.append (h : d.Reads args d') (h' : d'.Reads args' d'') : d.Reads (args ++ args') d'' := by
  intro rest
  rw [List.append_assoc, h, h']

theorem reads_nil (d : Draft) : d.Reads [] d := fun _ => rfl

theorem reads_long {value : Option String} (htext : Argument.ofText text = .long name value)
    (hname : name ≠ "") (h : d.long name value = .ok (d', none)) : d.Reads [text] d' := by
  intro rest
  rw [List.singleton_append, arguments.eq_def]
  simp only [htext, hname, false_and, if_false, h]
  rfl

theorem reads_longOption (slot : Slot) (hslot : Flag.ofLong? name = some (.slot slot))
    (hequals : '=' ∉ name.toList) (hname : name ≠ "") (h : d.set slot value = .ok d') : d.Reads [longOption name value] d' := by
  refine reads_long (ofText_longOption hequals) hname ?_
  simp only [long, hslot, h]
  rfl

theorem reads_metadata {path : String} (hd : d.metadata = none) (hpath : path ≠ "") :
    d.Reads [longOption "metadata" path] { d with metadata := some path } := by
  refine reads_longOption .metadata rfl (by decide) (by decide) ?_
  rw [set, hd, path?, if_neg hpath]
  rfl

theorem reads_output {output : Option String} (hd : d.output = none) (hpath : output ≠ some "") :
    d.Reads (output.map (longOption "output")).toList { d with output := output } := by
  cases output with
  | none =>
    cases d
    cases hd
    exact reads_nil _
  | some path =>
    refine reads_longOption .output rfl (by decide) (by decide) ?_
    rw [set, hd, path?, if_neg fun hempty => hpath (congrArg some hempty)]
    rfl

theorem reads_messageName {messageName : Option String} (hd : d.messageName = none) :
    d.Reads (messageName.map (longOption "message-name")).toList
      { d with messageName := messageName } := by
  cases messageName with
  | none =>
    cases d
    cases hd
    exact reads_nil _
  | some name =>
    refine reads_longOption .messageName rfl (by decide) (by decide) ?_
    rw [set, hd]
    rfl

theorem reads_maxDepth {n : Nat} (hd : d.maxDepth = none) (hn : n < Nat.pow 2 64) :
    d.Reads [longOption "max-depth" (toString n)] { d with maxDepth := some n } := by
  refine reads_longOption .maxDepth rfl (by decide) (by decide) ?_
  rw [set, hd, depth?_toString hn]
  rfl

theorem reads_format {format : Format} (hd : d.format = none) :
    d.Reads [longOption "format" format.option] { d with format := some format } := by
  refine reads_longOption .format rfl (by decide) (by decide) ?_
  rw [set, hd]
  cases format <;> rfl

theorem reads_strictAttributes {flag : Bool} (hd : d.strictAttributes = false) :
    d.Reads (if flag then ["--strict-schema-attributes"] else [])
      { d with strictAttributes := flag } := by
  cases flag with
  | false =>
    cases d
    cases hd
    exact reads_nil _
  | true =>
    refine reads_long (show _ = Argument.long "strict-schema-attributes" none from rfl) (by decide) ?_
    simp only [long, Flag.ofLong?, turnOn, hd]
    rfl

theorem reads_verbose {flag : Bool} (hd : d.verbose = false) :
    d.Reads (if flag then ["--verbose"] else []) { d with verbose := flag } := by
  cases flag with
  | false =>
    cases d
    cases hd
    exact reads_nil _
  | true =>
    refine reads_long (show _ = Argument.long "verbose" none from rfl) (by decide) ?_
    simp only [long, Flag.ofLong?, turnOn, hd]
    rfl

theorem arguments_operand {path : String} (hd : d.input = none) (hpath : path ≠ "") :
    d.arguments none ["--", path] = .ok { d with input := some path } := by
  have htext : Argument.ofText "--" = .long "" none := rfl
  rw [arguments.eq_def]
  simp only [htext, and_self, if_true, operands, operand, hd, path?, if_neg hpath, once]
  rfl

theorem reads_options {s : Settings} (h : s.Spellable) :
    Reads {} s.options ⟨none, some s.metadata, s.output, s.messageName, some s.maxDepth,
      s.strictAttributes, some s.format, s.verbose⟩ :=
  (reads_metadata rfl h.metadata).append <| (reads_output rfl h.output).append <|
    (reads_messageName rfl).append <| (reads_maxDepth rfl h.maxDepth).append <|
    (reads_strictAttributes rfl).append <| (reads_format rfl).append (reads_verbose rfl)

end Draft

/-- **Arguments for settings are read as these settings.** -/
theorem ofArguments_arguments {s : Settings} (h : s.Spellable) :
    Invocation.ofArguments s.arguments = .convert s := by
  have hread := Draft.reads_options h ["--", s.input]
  rw [Draft.arguments_operand rfl h.input] at hread
  rw [Invocation.ofArguments, Settings.arguments, Invocation.settings?, hread]
  rfl

end CommandLine
end XsdSynthesis
