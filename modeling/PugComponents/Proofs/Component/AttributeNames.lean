import Mathlib.Data.List.Nodup
import PugComponents.Proofs.Component.Shapes
import PugComponents.Proofs.Template.TagHeads

/- The names of the attributes of an element. A later attribute of the same name
   takes the place of an earlier one without a word, so the names should be
   distinct. The names of an element are those that the head of its tag writes,
   with `class` under its name in markup, and one more for all class names together
   (`names_of_tag`). So names that are distinct in the head stay so, except where
   several of class names, `class` and `className` meet
   (`elementNames_nodup_iff`). -/
namespace PugComponents.Component

open scoped List
open Component.Lower (result_bind_eq_ok result_pure_eq_ok result_mapM_eq_ok)
open Jsx
open Script (SnippetReader)
open Template (Node Spread Span TagPart TagHead Document classNames plainAttributes
  tagAttributes mem_partsOf_self headAt parse_tag_attributes)

/-! ## Attributes of an element -/

/-- The name that an attribute gives a value to; a spread gives none by itself. -/
def givenName? : Attribute → Option String
  | .flag name => some name
  | .value name _ => some name
  | .spread _ => none

/-- The names that attributes give values to, in their order. -/
def givenNames (attributes : List Attribute) : List String := attributes.filterMap givenName?

variable {reader : SnippetReader}

theorem givenName?_lowerAttribute {a : Template.Attribute} {b : Attribute}
    (h : (lowerAttribute reader a).result = .ok b) : givenName? b = some (attributeName a.name) := by
  unfold lowerAttribute at h
  split at h
  · obtain rfl := result_pure_eq_ok.mp h
    rfl
  · split at h
    · obtain rfl := result_pure_eq_ok.mp h
      rfl
    · obtain ⟨e, -, h⟩ := result_bind_eq_ok.mp h
      obtain rfl := result_pure_eq_ok.mp h
      rfl

theorem givenName?_lowerSpread {s : Spread} {b : Attribute} (h : (lowerSpread reader s).result = .ok b) :
    givenName? b = none := by
  obtain ⟨e, -, h⟩ := result_bind_eq_ok.mp h
  obtain rfl := result_pure_eq_ok.mp h
  rfl

variable {list : List Attribute}

theorem givenNames_mapM {α : Type} {f : α → Lower Attribute} {g : α → Option String} {xs : List α}
    (h : (xs.mapM f).result = .ok list) (hf : ∀ x a, (f x).result = .ok a → givenName? a = g x) :
    givenNames list = xs.filterMap g := by
  have hall := result_mapM_eq_ok.mp h
  clear h
  induction hall with
  | nil => rfl
  | @cons x a xs list ha _ ih =>
    rw [givenNames, List.filterMap_cons, List.filterMap_cons, hf x a ha, ← ih, givenNames]

/-- Each attribute keeps its name, but for the one that markup calls otherwise. -/
theorem givenNames_lowerAttributes {attributes : List Template.Attribute} {spreads : List Spread}
    (h : (lowerAttributes reader attributes spreads).result = .ok list) :
    givenNames list = (attributes.map (·.name)).map attributeName := by
  obtain ⟨first, hfirst, h⟩ := result_bind_eq_ok.mp h
  obtain ⟨second, hsecond, h⟩ := result_bind_eq_ok.mp h
  obtain rfl := result_pure_eq_ok.mp h
  have hattributes := givenNames_mapM hfirst fun _ _ => givenName?_lowerAttribute
  have hspreads := givenNames_mapM (g := fun _ => none) hsecond fun _ _ => givenName?_lowerSpread
  rw [givenNames] at hattributes hspreads
  rw [givenNames, List.filterMap_append, hattributes, hspreads]
  simp [Function.comp_def]

/-! ## Attributes of a head -/

/-- The names of the attributes that a head writes, an id among them, without its class names. -/
def plainNames (parts : List TagPart) : List String := (plainAttributes parts).map (·.name)

/-- Beside the attributes as they are written, a tag has one for all its class names. -/
theorem tagAttributes_names (classes : List String) (parts : List TagPart) :
    (tagAttributes classes parts).map (·.name) ~
      (if classNames parts = [] then [] else ["class"]) ++ plainNames parts := by
  fun_induction tagAttributes classes parts with
  | case1 => exact .refl _
  | case2 a parts ih =>
    calc a.name :: (tagAttributes classes parts).map (·.name)
        ~ a.name :: ((if classNames parts = [] then [] else ["class"]) ++ plainNames parts) :=
          ih.cons a.name
      _ ~ (if classNames parts = [] then [] else ["class"]) ++ a.name :: plainNames parts :=
          List.perm_middle.symm
  | case3 => exact .refl _

/-- The names of the element of a tag. -/
theorem names_of_tag {attributes : List Template.Attribute} {head : TagHead}
    (hattributes : attributes = head.attributes) {spreads : List Spread}
    (h : (lowerAttributes reader attributes spreads).result = .ok list) :
    givenNames list ~ (if classNames head.parts = [] then [] else ["className"]) ++
      (plainNames head.parts).map attributeName := by
  rw [givenNames_lowerAttributes h, hattributes]
  have hnames := (tagAttributes_names (classNames head.parts) head.parts).map attributeName
  rw [List.map_append] at hnames
  refine hnames.trans (List.Perm.of_eq (congrArg (· ++ _) ?_))
  split
  · rfl
  · rfl

/-! ## Names that meet -/

theorem attributeName_of_ne {name : String} (h : name ≠ "class") : attributeName name = name := by
  rw [attributeName, if_neg (by simpa using h)]

theorem attributeName_eq_iff {x y : String} :
    attributeName x = attributeName y ↔
      x = y ∨ x = "class" ∧ y = "className" ∨ x = "className" ∧ y = "class" := by
  constructor
  · intro h
    by_cases hx : x = "class"
    · by_cases hy : y = "class"
      · exact .inl (hx.trans hy.symm)
      · rw [attributeName_of_ne hy, hx] at h
        exact .inr (.inl ⟨hx, h.symm⟩)
    · by_cases hy : y = "class"
      · rw [attributeName_of_ne hx, hy] at h
        exact .inr (.inr ⟨h, hy⟩)
      · rw [attributeName_of_ne hx, attributeName_of_ne hy] at h
        exact .inl h
  · rintro (rfl | ⟨rfl, rfl⟩ | ⟨rfl, rfl⟩) <;> rfl

variable {names : List String}

theorem className_mem_map_attributeName :
    "className" ∈ names.map attributeName ↔ "class" ∈ names ∨ "className" ∈ names := by
  have hname : ∀ name, attributeName name = "className" ↔ name = "className" ∨ name = "class" := by
    intro name
    have hiff := attributeName_eq_iff (x := name) (y := "className")
    rw [show attributeName "className" = "className" from rfl] at hiff
    rw [hiff]
    simp
  simp only [List.mem_map, hname]
  constructor
  · rintro ⟨name, hmem, rfl | rfl⟩
    · exact .inr hmem
    · exact .inl hmem
  · rintro (hmem | hmem)
    · exact ⟨_, hmem, .inr rfl⟩
    · exact ⟨_, hmem, .inl rfl⟩

/-- Only `class` and `className` meet in markup. -/
theorem nodup_map_attributeName :
    (names.map attributeName).Nodup ↔ names.Nodup ∧ ("class" ∈ names → "className" ∉ names) := by
  constructor
  · intro h
    have hnames : names.Nodup := .of_map attributeName h
    refine ⟨hnames, fun hclass hclassName => ?_⟩
    have heq := (List.nodup_map_iff_inj_on hnames).mp h _ hclass _ hclassName rfl
    exact absurd heq (by decide)
  · rintro ⟨hnames, hmeet⟩
    refine (List.nodup_map_iff_inj_on hnames).mpr fun x hx y hy heq => ?_
    rcases attributeName_eq_iff.mp heq with rfl | ⟨rfl, rfl⟩ | ⟨rfl, rfl⟩
    · rfl
    · exact absurd hy (hmeet hx)
    · exact absurd hx (hmeet hy)

/-- Class names meet with both of them. -/
theorem nodup_className_append {classes : List String} :
    ((if classes = [] then [] else ["className"]) ++ names.map attributeName).Nodup ↔
      names.Nodup ∧ ("class" ∈ names → "className" ∉ names) ∧
        (classes ≠ [] → "class" ∉ names ∧ "className" ∉ names) := by
  by_cases hclasses : classes = []
  · simp [hclasses, nodup_map_attributeName]
  · rw [if_neg hclasses, List.singleton_append, List.nodup_cons, nodup_map_attributeName,
      className_mem_map_attributeName, not_or]
    tauto

/-- The attributes of the element of a tag have distinct names exactly if those that its head writes
have, not both `class` and `className` are among them, and with class names neither is. -/
theorem elementNames_nodup_iff {source name : String} {attributes : List Template.Attribute}
    {spreads : List Spread} {children : List Node} {selfClosing : Bool} {s : Span}
    (htag : .node (.tag name attributes spreads children selfClosing s) ∈
      Template.partsOf (Document.parse source).1.nodes)
    (setting : Setting) (top : Bool) {lowered : Lowered}
    (h : (lowerNode setting top (.tag name attributes spreads children selfClosing s)).result =
      .ok lowered) :
    ∃ list kids, lowered = .one (.child (.markup (.element name list kids selfClosing))) ∧
      ((givenNames list).Nodup ↔
        (plainNames (headAt source.toList s).parts).Nodup ∧
        ("class" ∈ plainNames (headAt source.toList s).parts →
          "className" ∉ plainNames (headAt source.toList s).parts) ∧
        (classNames (headAt source.toList s).parts ≠ [] →
          "class" ∉ plainNames (headAt source.toList s).parts ∧
            "className" ∉ plainNames (headAt source.toList s).parts)) := by
  obtain ⟨list, ts, hlist, -, rfl⟩ := lowerNode_eq_ok h
  refine ⟨list, _, rfl, ?_⟩
  rw [(names_of_tag (parse_tag_attributes htag) hlist).nodup_iff]
  exact nodup_className_append

/-- A class name and a `class` attribute, which are distinct in the head, are two attributes of one
name in markup. -/
theorem className_given_twice :
    ∃ attributes s list kids,
      .node (.tag "a" attributes [] [] false s) ∈
        Template.partsOf (Document.parse "a.x(class='y')").1.nodes ∧
      (plainNames (headAt "a.x(class='y')".toList s).parts).Nodup ∧
      (lowerNode ⟨calmReader, false⟩ true (.tag "a" attributes [] [] false s)).result =
        .ok (.one (.child (.markup (.element "a" list kids false)))) ∧
      ¬ (givenNames list).Nodup := by
  have hnodes : (Document.parse "a.x(class='y')").1.nodes =
      [.tag "a" [⟨"class", .expression "'x'", true, ⟨1, 3⟩⟩,
        ⟨"class", .expression "'y'", true, ⟨4, 13⟩⟩] [] [] false ⟨0, 14⟩] := rfl
  have htag := hnodes ▸ mem_partsOf_self _
  have hplain : plainNames (headAt "a.x(class='y')".toList ⟨0, 14⟩).parts = ["class"] := by
    decide +kernel
  have hclasses : classNames (headAt "a.x(class='y')".toList ⟨0, 14⟩).parts = ["x"] := by
    decide +kernel
  obtain ⟨list, kids, hlowered, hdistinct⟩ :=
    elementNames_nodup_iff htag ⟨calmReader, false⟩ true rfl
  rw [hplain, hclasses] at hdistinct
  refine ⟨_, _, list, kids, htag, ?_, congrArg Except.ok hlowered, ?_⟩
  · rw [hplain]
    exact List.nodup_singleton _
  · rw [hdistinct]
    decide

end PugComponents.Component
