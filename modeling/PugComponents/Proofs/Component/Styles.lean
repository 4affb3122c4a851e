import PugComponents.Proofs.Component.Demands
import PugComponents.Proofs.Text.Trimming

/- Styles that are string literals. The literal holds declarations with semicolons between them, each
   a key and a value with a colon between them. White space around them does not count, nor do quotes
   around the key, so each declaration gives its key and its value as a property
   (`declaration?_text`), and the literal the object of all of them (`style_declarations`). -/
namespace PugComponents.Component

open Text
open Jsx (Property)
open Script (SnippetReader)

/-- A declaration as it can be written in a literal with this quote. -/
structure Declaration (quote : Char) where
  key : List Char
  value : List Char
  /-- The quotes around the key, if there are any. -/
  wrap : Option Char
  beforeKey : List Char
  afterKey : List Char
  beforeValue : List Char
  afterValue : List Char
  key_trimmed : Trimmed key
  key_plain : ∀ c ∈ key, c ≠ ':' ∧ c ≠ ';' ∧ c ≠ '\x7b' ∧ c ≠ quote := by simp
  key_start : ∀ c ∈ key.head?, isKeyQuote c = false := by simp [isKeyQuote]
  key_end : ∀ c ∈ key.getLast?, isKeyQuote c = false := by simp [isKeyQuote]
  value_trimmed : trim value = value := by decide
  value_plain : ∀ c ∈ value, c ≠ ';' ∧ c ≠ '\x7b' ∧ c ≠ quote := by simp
  wrap_plain : ∀ c ∈ wrap, isKeyQuote c = true ∧ c ≠ quote := by simp [isKeyQuote]
  beforeKey_blank : isBlank beforeKey = true := by decide
  afterKey_blank : isBlank afterKey = true := by decide
  beforeValue_blank : isBlank beforeValue = true := by decide
  afterValue_blank : isBlank afterValue = true := by decide

namespace Declaration

variable {quote : Char} (d : Declaration quote)

/-- The key with the quotes around it. -/
def wrapped : List Char := d.wrap.toList ++ d.key ++ d.wrap.toList

def text : List Char :=
  (d.beforeKey ++ d.wrapped ++ d.afterKey) ++ ':' :: (d.beforeValue ++ d.value ++ d.afterValue)

def property : Property := .mk (String.ofList d.key) (.str (String.ofList d.value))

end Declaration

/-- The text holds the declarations in order. One or more semicolons stand between two of them, and
any number at the ends; there may be white space between semicolons. -/
inductive Declared {quote : Char} : List (Declaration quote) → List Char → Prop
  | nil (pad : List Char) (hpad : isBlank pad = true) : Declared [] pad
  | single (d : Declaration quote) : Declared [d] d.text
  | skip (pad : List Char) (hpad : isBlank pad = true) {ds : List (Declaration quote)}
      {cs : List Char} : Declared ds cs → Declared ds (pad ++ ';' :: cs)
  | cons (d : Declaration quote) {ds : List (Declaration quote)} {cs : List Char} :
      Declared ds cs → Declared (d :: ds) (d.text ++ ';' :: cs)

/-! ## Single declarations -/

theorem not_mem_of_isBlank {pad : List Char} (h : isBlank pad = true) {x : Char}
    (hx : isWhiteSpace x = false) : x ∉ pad := by
  intro hmem
  rw [List.all_eq_true.mp h x hmem] at hx
  cases hx

theorem trim_padded {before cs after : List Char} (hbefore : isBlank before = true)
    (hafter : isBlank after = true) (h : trim cs = cs) : trim (before ++ cs ++ after) = cs := by
  have hstart : trimStart (before ++ (cs ++ after)) = trimStart (cs ++ after) :=
    List.dropWhile_append_of_pos (List.all_eq_true.mp hbefore)
  rw [List.append_assoc, trim, hstart]
  by_cases hne : cs = []
  · have hall : trimStart (after ++ []) = [] :=
      List.dropWhile_append_of_pos (List.all_eq_true.mp hafter)
    rw [List.append_nil] at hall
    rw [hne, List.nil_append, hall]
    rfl
  · obtain ⟨c, rest, rfl, hc⟩ := Trimmed.head ⟨hne, h⟩
    rw [List.cons_append, trimStart_of_head hc, ← List.cons_append, Respacing.trimEnd_append_blank _ hafter]
    rwa [trim, trimStart_of_head hc] at h

theorem cutAtChar?_append {separator : Char} {front : List Char} (h : separator ∉ front)
    (back : List Char) : cutAtChar? separator (front ++ separator :: back) = some (front, back) := by
  induction front with
  | nil => simp [cutAtChar?]
  | cons c front ih =>
    have hc : c ≠ separator := fun heq => h (heq ▸ List.mem_cons_self)
    simp [cutAtChar?, hc, ih fun hmem => h (List.mem_cons_of_mem c hmem)]

theorem isWhiteSpace_of_isKeyQuote {c : Char} (h : isKeyQuote c = true) : isWhiteSpace c = false := by
  simp only [isKeyQuote, Bool.or_eq_true, beq_iff_eq] at h
  rcases h with rfl | rfl <;> decide

theorem dropWhile_of_head {f : Char → Bool} {cs : List Char} (h : ∀ c ∈ cs.head?, f c = false) :
    cs.dropWhile f = cs := by
  cases cs with
  | nil => rfl
  | cons c cs => exact List.dropWhile_cons_of_neg (by rw [h c rfl]; exact Bool.false_ne_true)

namespace Declaration

variable {quote : Char} (d : Declaration quote)

theorem wrapped_trimmed : Trimmed d.wrapped := by
  unfold wrapped
  cases hwrap : d.wrap with
  | none => simpa using d.key_trimmed
  | some c =>
    have hc := isWhiteSpace_of_isKeyQuote (d.wrap_plain c hwrap).1
    have hlast : Trimmed [c] := ⟨List.cons_ne_nil _ _, by simp [trim, trimStart, trimEnd, hc]⟩
    exact hlast.cons_append hc d.key

theorem trimQuotes_wrapped : trimQuotes d.wrapped = d.key := by
  have hstart : d.key.dropWhile isKeyQuote = d.key := dropWhile_of_head d.key_start
  have hend : d.key.reverse.dropWhile isKeyQuote = d.key.reverse :=
    dropWhile_of_head (by simpa using d.key_end)
  unfold trimQuotes wrapped
  cases hwrap : d.wrap with
  | none => simp [hstart, hend]
  | some c =>
    have hc := (d.wrap_plain c hwrap).1
    obtain ⟨first, rest, hkey, -⟩ := d.key_trimmed.head
    have hfirst : isKeyQuote first = false := d.key_start first (by rw [hkey]; rfl)
    have hfront : (d.key ++ [c]).dropWhile isKeyQuote = d.key ++ [c] :=
      dropWhile_of_head (by rw [hkey]; simpa using hfirst)
    simp [hc, hfront, hend]

/-! What does not stand in a declaration. -/

variable {d} {x : Char}

theorem not_mem_front (hx : isWhiteSpace x = false) (hwrap : x ∉ d.wrap) (hkey : x ∉ d.key) :
    x ∉ d.beforeKey ++ d.wrapped ++ d.afterKey := by
  have hbefore := not_mem_of_isBlank d.beforeKey_blank hx
  have hafter := not_mem_of_isBlank d.afterKey_blank hx
  simpa [wrapped, hbefore, hafter, hkey] using hwrap

theorem not_mem_text (hx : isWhiteSpace x = false) (hwrap : x ∉ d.wrap) (hkey : x ∉ d.key)
    (hcolon : x ≠ ':') (hvalue : x ∉ d.value) : x ∉ d.text := by
  have hbefore := not_mem_of_isBlank d.beforeValue_blank hx
  have hafter := not_mem_of_isBlank d.afterValue_blank hx
  simpa [text, hcolon, hbefore, hvalue, hafter] using not_mem_front hx hwrap hkey

theorem not_mem_wrap (hx : isKeyQuote x = false) : x ∉ d.wrap := by
  intro h
  rw [(d.wrap_plain x h).1] at hx
  cases hx

theorem semicolon_not_mem (d : Declaration quote) : ';' ∉ d.text :=
  not_mem_text (by decide) (not_mem_wrap (by decide)) (fun h => (d.key_plain _ h).2.1 rfl) (by decide)
    fun h => (d.value_plain _ h).1 rfl

theorem brace_not_mem (d : Declaration quote) : '\x7b' ∉ d.text :=
  not_mem_text (by decide) (not_mem_wrap (by decide)) (fun h => (d.key_plain _ h).2.2.1 rfl) (by decide)
    fun h => (d.value_plain _ h).2.1 rfl

theorem quote_not_mem (hspace : isWhiteSpace quote = false) (hcolon : quote ≠ ':')
    (d : Declaration quote) : quote ∉ d.text :=
  not_mem_text hspace (fun h => (d.wrap_plain _ h).2 rfl) (fun h => (d.key_plain _ h).2.2.2 rfl) hcolon
    fun h => (d.value_plain _ h).2.2 rfl

/-- A declaration gives its key and its value. -/
theorem declaration?_text (d : Declaration quote) : declaration? d.text = some d.property := by
  have hcolon : ':' ∉ d.beforeKey ++ d.wrapped ++ d.afterKey :=
    not_mem_front (by decide) (not_mem_wrap (by decide)) fun h => (d.key_plain _ h).1 rfl
  have hkey := trim_padded d.beforeKey_blank d.afterKey_blank d.wrapped_trimmed.trim_eq
  have hvalue := trim_padded d.beforeValue_blank d.afterValue_blank d.value_trimmed
  rw [declaration?, text, cutAtChar?_append hcolon]
  simp only [hkey, d.trimQuotes_wrapped, hvalue]
  split
  · rename_i hnil
    exact absurd hnil d.key_trimmed.ne_nil
  · rfl

end Declaration

/-! ## All declarations -/

theorem declaration?_blank {pad : List Char} (h : isBlank pad = true) : declaration? pad = none := by
  have hnone : cutAtChar? ':' pad = none := by
    induction pad with
    | nil => rfl
    | cons c pad ih =>
      obtain ⟨hc, hpad⟩ := Bool.and_eq_true_iff.mp h
      have hne : c ≠ ':' := by
        rintro rfl
        cases hc
      simp [cutAtChar?, hne, ih hpad]
  rw [declaration?, hnone]

namespace Declared

variable {quote : Char} {ds : List (Declaration quote)} {cs : List Char}

theorem not_mem {x : Char} (hx : isWhiteSpace x = false) (hne : x ≠ ';')
    (hd : ∀ d : Declaration quote, x ∉ d.text) (h : Declared ds cs) : x ∉ cs := by
  induction h with
  | nil _ hpad => exact not_mem_of_isBlank hpad hx
  | single d => exact hd d
  | skip _ hpad _ ih => simpa [hne, ih] using not_mem_of_isBlank hpad hx
  | cons d _ ih => simpa [hne, ih] using hd d

/-- Between the semicolons stand the declarations, and nothing else that counts. -/
theorem filterMap_eq (h : Declared ds cs) :
    (splitAtChar ';' cs).filterMap declaration? = ds.map Declaration.property := by
  have hcut {part rest : List Char} (hpart : ';' ∉ part) :
      splitAtChar ';' (part ++ ';' :: rest) = part :: splitAtChar ';' rest := by
    rw [splitAtChar_append_cons, splitAtChar_of_notMem hpart]
    rfl
  induction h with
  | nil _ hpad =>
    rw [splitAtChar_of_notMem (not_mem_of_isBlank hpad (by decide)), List.filterMap_cons_none (declaration?_blank hpad)]
    rfl
  | single d =>
    rw [splitAtChar_of_notMem d.semicolon_not_mem, List.filterMap_cons_some d.declaration?_text]
    rfl
  | skip _ hpad _ ih =>
    rw [hcut (not_mem_of_isBlank hpad (by decide)), List.filterMap_cons_none (declaration?_blank hpad), ih]
  | cons d _ ih =>
    rw [hcut d.semicolon_not_mem, List.filterMap_cons_some d.declaration?_text, ih]
    rfl

end Declared

/-- A style that is written as a literal with this text between its quotes. -/
def styleAttribute (quote : Char) (cs : List Char) (escaped : Bool) (span : Template.Span) :
    Template.Attribute :=
  ⟨"style", .expression (String.ofList (quote :: (cs ++ [quote]))), escaped, span⟩

/-- **A style literal is the object of its declarations.** They keep their order, their keys and their
values. No snippet is demanded for them, and whatever the reader does the object is the same. -/
theorem style_declarations {quote : Char} (hquote : isQuote quote = true)
    {ds : List (Declaration quote)} {cs : List Char} (h : Declared ds cs) (escaped : Bool)
    (span : Template.Span) :
    (∀ reader : SnippetReader, lowerAttribute reader (styleAttribute quote cs escaped span) =
      pure (.value "style" (.object (ds.map Declaration.property)))) ∧
    attributeDemands (styleAttribute quote cs escaped span) = [] := by
  obtain ⟨hspace, hcolon, hsemicolon, hbrace⟩ :
      isWhiteSpace quote = false ∧ quote ≠ ':' ∧ quote ≠ ';' ∧ quote ≠ '\x7b' := by
    simp only [isQuote, Bool.or_eq_true, beq_iff_eq] at hquote
    rcases hquote with (rfl | rfl) | rfl <;> decide
  have hinner : quote ∉ cs := h.not_mem hspace hsemicolon (Declaration.quote_not_mem hspace hcolon)
  have hplain : '\x7b' ∉ quote :: (cs ++ [quote]) := by
    simpa [hbrace.symm] using h.not_mem (by decide) (by decide) Declaration.brace_not_mem
  have htrim : trim (quote :: (cs ++ [quote])) = quote :: (cs ++ [quote]) := by
    rw [trim, trimStart_of_head hspace, ← List.cons_append, Respacing.trimEnd_concat _ hspace]
  have hliteral : styleLiteral? "style" (String.ofList (quote :: (cs ++ [quote]))) = some cs := by
    rw [styleLiteral?, String.toList_ofList, htrim, if_pos (by simpa using hplain)]
    exact unquoted?_eq_some.mpr ⟨quote, hquote, hinner, rfl⟩
  constructor
  · intro reader
    simp only [lowerAttribute, styleAttribute, hliteral, styleObject, h.filterMap_eq]
    rfl
  · exact if_pos (styleLiteral?_isSome.mp (hliteral ▸ rfl))

/-- Two declarations and empty parts between single quotes: the key of the first is in double quotes,
and the value of the second has a colon and double quotes. -/
theorem style_declarations_quoted :
    ∃ ds : List (Declaration '\''), isQuote '\'' = true ∧
      Declared ds " \"font-size\" : 12px;; background:url(\"data:,\");".toList ∧
      ds.map Declaration.property =
        [.mk "font-size" (.str "12px"), .mk "background" (.str "url(\"data:,\")")] ∧
      ∀ (span : Template.Span) (reader : SnippetReader),
        lowerAttribute reader
            (styleAttribute '\'' " \"font-size\" : 12px;; background:url(\"data:,\");".toList true span) =
          pure (.value "style" (.object (ds.map Declaration.property))) := by
  let size : Declaration '\'' :=
    { key := "font-size".toList, value := "12px".toList, wrap := some '"'
      beforeKey := [' '], afterKey := [' '], beforeValue := [' '], afterValue := []
      key_trimmed := ⟨by decide, by decide⟩ }
  let background : Declaration '\'' :=
    { key := "background".toList, value := "url(\"data:,\")".toList, wrap := none
      beforeKey := [' '], afterKey := [], beforeValue := [], afterValue := []
      key_trimmed := ⟨by decide, by decide⟩ }
  have hdeclared : Declared [size, background]
      " \"font-size\" : 12px;; background:url(\"data:,\");".toList :=
    .cons size (.skip [] rfl (.cons background (.nil [] rfl)))
  exact ⟨[size, background], by decide, hdeclared, rfl,
    fun span => (style_declarations (by decide) hdeclared true span).1⟩

end PugComponents.Component
