import Mathlib.Data.List.Forall2
import PugComponents.Proofs.Template.Pieces
import PugComponents.Proofs.Text.Balanced

/- The tiling of a text by its nodes. Text with interpolations is cut into slices
   that follow each other without a gap, one for each node. A slice is literal
   text, whose escapes are undone, or a script with a balanced inside; literal
   texts do not follow each other. Only a script that is not closed breaks the
   rule: from there on the text is kept as it is, at the end of the last node
   (`interpolated_tiling`). -/
namespace PugComponents.Template

open Text

/-! ## Literal text -/

/-- Literal text without the backslashes that keep `#{` and `!{` from being scripts. -/
def unescaped : List Char → List Char
  | [] => []
  | '\\' :: '#' :: '\x7b' :: cs => '#' :: '\x7b' :: unescaped cs
  | '\\' :: '!' :: '\x7b' :: cs => '!' :: '\x7b' :: unescaped cs
  | c :: cs => c :: unescaped cs

/-- Whether `#{` or `!{` stands in the text without such a backslash. -/
def opensScript : List Char → Bool
  | [] => false
  | '\\' :: '#' :: '\x7b' :: cs => opensScript cs
  | '\\' :: '!' :: '\x7b' :: cs => opensScript cs
  | '#' :: '\x7b' :: _ => true
  | '!' :: '\x7b' :: _ => true
  | _ :: cs => opensScript cs

variable {front : List Char}

theorem OpensScript.append (h : OpensScript front) (rest : List Char) :
    OpensScript (front ++ rest) := by
  obtain ⟨sign, after, rfl, hsign⟩ := h
  exact ⟨sign, after ++ rest, rfl, hsign⟩

variable {c : Char} {cs : List Char}

/-- Without a backslash and a script, a character stands for itself. -/
theorem unescaped_cons (h : c = '\\' → ¬ OpensScript cs) :
    unescaped (c :: cs) = c :: unescaped cs := by
  rw [unescaped]
  · rintro after rfl rfl
    exact h rfl ⟨'#', after, rfl, .inl rfl⟩
  · rintro after rfl rfl
    exact h rfl ⟨'!', after, rfl, .inr rfl⟩

theorem opensScript_cons (h : c = '\\' → ¬ OpensScript cs) (hc : ¬ OpensScript (c :: cs)) :
    opensScript (c :: cs) = opensScript cs := by
  rw [opensScript]
  · rintro after rfl rfl
    exact h rfl ⟨'#', after, rfl, .inl rfl⟩
  · rintro after rfl rfl
    exact h rfl ⟨'!', after, rfl, .inr rfl⟩
  · rintro after rfl rfl
    exact hc ⟨'#', after, rfl, .inl rfl⟩
  · rintro after rfl rfl
    exact hc ⟨'!', after, rfl, .inr rfl⟩

/-- What literal text is read as: its front, up to the end or to the next script. -/
structure Literal.Reads (cs front : List Char) (l : Literal) : Prop where
  split : cs = front ++ l.rest
  value : l.value = unescaped front
  plain : opensScript front = false
  ends : l.rest = [] ∨ OpensScript l.rest ∧ front.getLast? ≠ some '\\'

variable {sign : Char}

/-- An escape in front. -/
theorem Literal.Reads.escape (hsign : sign = '#' ∨ sign = '!') {l : Literal} (h : l.Reads cs front) :
    Literal.Reads ('\\' :: sign :: '\x7b' :: cs) ('\\' :: sign :: '\x7b' :: front)
      ⟨sign :: '\x7b' :: l.value, l.bytes + 3, l.rest⟩ where
  split := by rw [h.split]; rfl
  value := by rcases hsign with rfl | rfl <;> rw [h.value, unescaped]
  plain := by rcases hsign with rfl | rfl <;> rw [opensScript, h.plain]
  ends := by
    refine h.ends.imp_right fun hopens => ⟨hopens.1, ?_⟩
    rw [List.getLast?_cons_cons, List.getLast?_cons_cons]
    cases front with
    | nil => simp
    | cons d front => rw [List.getLast?_cons_cons]; exact hopens.2

/-- Any other character in front. -/
theorem Literal.Reads.char {l : Literal} (h : l.Reads cs front)
    (hescape : c = '\\' → ¬ OpensScript cs) (hopen : ¬ OpensScript (c :: cs)) :
    Literal.Reads (c :: cs) (c :: front) ⟨c :: l.value, l.bytes + c.utf8Size, l.rest⟩ where
  split := by rw [h.split]; rfl
  value := by
    rw [h.value, unescaped_cons]
    exact fun hc hfront => hescape hc (h.split ▸ hfront.append l.rest)
  plain := by
    rw [opensScript_cons, h.plain]
    · exact fun hc hfront => hescape hc (h.split ▸ hfront.append l.rest)
    · intro hfront
      apply hopen
      rw [h.split]
      exact hfront.append l.rest
  ends := by
    refine h.ends.imp_right fun hopens => ⟨hopens.1, ?_⟩
    cases front with
    | nil =>
      intro hlast
      -- The script stands right behind `c`, which as a backslash would have escaped it.
      refine hescape (Option.some.inj hlast) ?_
      rw [h.split]
      exact hopens.1
    | cons d front => rw [List.getLast?_cons_cons]; exact hopens.2

theorem literal_reads (cs : List Char) : ∃ front, (literal cs).Reads cs front := by
  fun_induction literal cs with
  | case1 => exact ⟨[], rfl, rfl, rfl, .inl rfl⟩
  | case2 cs l ih =>
    obtain ⟨front, hfront⟩ := ih
    exact ⟨_, hfront.escape (.inl rfl)⟩
  | case3 cs l ih =>
    obtain ⟨front, hfront⟩ := ih
    exact ⟨_, hfront.escape (.inr rfl)⟩
  | case4 cs => exact ⟨[], rfl, rfl, rfl, .inr ⟨⟨'#', cs, rfl, .inl rfl⟩, by simp⟩⟩
  | case5 cs => exact ⟨[], rfl, rfl, rfl, .inr ⟨⟨'!', cs, rfl, .inr rfl⟩, by simp⟩⟩
  | case6 c cs hhash hbang hopenHash hopenBang l ih =>
    obtain ⟨front, hfront⟩ := ih
    refine ⟨c :: front, hfront.char ?_ ?_⟩
    · rintro rfl ⟨sign, after, rfl, rfl | rfl⟩
      · exact hhash after rfl rfl
      · exact hbang after rfl rfl
    · rintro ⟨sign, after, heq, hsign⟩
      obtain ⟨rfl, rfl⟩ := List.cons.inj heq
      rcases hsign with rfl | rfl
      · exact hopenHash after rfl rfl
      · exact hopenBang after rfl rfl

theorem literal_bytes (h : cs = front ++ (literal cs).rest) :
    (literal cs).bytes = byteLength front := by
  obtain ⟨front', hsplit, hbytes, -⟩ := literal_split cs
  rw [← hbytes, List.append_cancel_right (hsplit.symm.trans h)]

theorem unescaped_ne_nil (h : cs ≠ []) : unescaped cs ≠ [] := by
  fun_cases unescaped cs with
  | case1 => exact absurd rfl h
  | case2 | case3 | case4 => exact List.cons_ne_nil _ _

/-! ## Slices -/

/-- The spans of slices that follow each other from an offset on. -/
def spansFrom : Nat → List (List Char) → List Span
  | _, [] => []
  | start, slice :: slices =>
    ⟨start, start + byteLength slice⟩ :: spansFrom (start + byteLength slice) slices

/-- The node for a slice of a text: literal text with its escapes undone, or a script. -/
inductive Stands : List Char → Node → Prop
  | text {slice : List Char} (s : Span) (hplain : opensScript slice = false) :
    Stands slice (.text (String.ofList (unescaped slice)) s)
  | hash {inner : List Char} (s : Span) (hinner : Balanced inner) :
    Stands ('#' :: '\x7b' :: (inner ++ ['\x7d'])) (.code (String.ofList (trim inner)) .escaped [] s)
  | bang {inner : List Char} (s : Span) (hinner : Balanced inner) :
    Stands ('!' :: '\x7b' :: (inner ++ ['\x7d'])) (.code (String.ofList (trim inner)) .unescaped [] s)

/-- A script is opened, and no brace behind a balanced inside closes it. -/
structure Unclosed (cs : List Char) : Prop where
  opens : OpensScript cs
  unmatched : ∀ sign inner after, Balanced inner → cs ≠ sign :: '\x7b' :: (inner ++ '\x7d' :: after)

/-- The last slice holds a script that is not closed. The fault goes from the script to the end, and
the last node keeps that part of the text as it is. -/
inductive EndsOpen (start : Nat) : List (List Char) → List Node → List Fault → Prop
  | mk {before : List (List Char)} {earlier : List Node} {front rest : List Char} (s : Span)
      (hbefore : List.Forall₂ Stands before earlier) (hplain : opensScript front = false)
      (hlast : front.getLast? ≠ some '\\') (hrest : Unclosed rest) :
    EndsOpen start (before ++ [front ++ rest])
      (earlier ++ [.text (String.ofList (unescaped front ++ rest)) s])
      [⟨.unclosedDelimiter '\x7b', ⟨start + byteLength (before.flatten ++ front),
        start + byteLength (before.flatten ++ (front ++ rest))⟩⟩]

def Node.isText : Node → Bool
  | .text _ _ => true
  | _ => false

/-- The nodes of a text that starts at an offset stand for slices that make up the text. A slice that
another one follows does not end in a backslash: it would escape the script behind it. -/
structure Tiling (start : Nat) (text : List Char) (slices : List (List Char)) (nodes : List Node)
    (faults : List Fault) : Prop where
  flatten : slices.flatten = text
  spans : nodes.map Node.span = spansFrom start slices
  apart : nodes.IsChain fun a b => a.isText = false ∨ b.isText = false
  unhidden : ∀ slice ∈ slices.dropLast, slice.getLast? ≠ some '\\'
  reads : (faults = [] ∧ List.Forall₂ Stands slices nodes) ∨ EndsOpen start slices nodes faults

theorem Tiling.nil (start : Nat) : Tiling start [] [] [] [] :=
  ⟨rfl, rfl, .nil, fun _ h => (nomatch h), .inl ⟨rfl, .nil⟩⟩

variable {start : Nat} {slices : List (List Char)} {nodes : List Node} {faults : List Fault}

theorem EndsOpen.cons {slice : List Char} {node : Node} (hnode : Stands slice node)
    (h : EndsOpen (start + byteLength slice) slices nodes faults) :
    EndsOpen start (slice :: slices) (node :: nodes) faults := by
  obtain ⟨s, hbefore, hplain, hlast, hrest⟩ := h
  have hopen : EndsOpen start _ _ _ := .mk s (.cons hnode hbefore) hplain hlast hrest
  simpa only [List.cons_append, List.flatten_cons, List.append_assoc, byteLength_append,
    Nat.add_assoc] using hopen

/-- One more slice in front. -/
theorem Tiling.cons {slice text : List Char} {node : Node}
    (h : Tiling (start + byteLength slice) text slices nodes faults) (hnode : Stands slice node)
    (hspan : node.span = ⟨start, start + byteLength slice⟩)
    (hapart : ∀ next ∈ nodes.head?, node.isText = false ∨ next.isText = false)
    (hlast : slices ≠ [] → slice.getLast? ≠ some '\\') :
    Tiling start (slice ++ text) (slice :: slices) (node :: nodes) faults where
  flatten := by rw [List.flatten_cons, h.flatten]
  spans := by rw [List.map_cons, hspan, h.spans, spansFrom]
  apart := by
    cases nodes with
    | nil => exact .singleton _
    | cons next nodes => exact .cons_cons (hapart next rfl) h.apart
  unhidden := by
    cases slices with
    | nil => exact fun _ hmem => (nomatch hmem)
    | cons next slices =>
      rw [List.dropLast_cons_cons]
      exact List.forall_mem_cons.mpr ⟨hlast (List.cons_ne_nil _ _), h.unhidden⟩
  reads := h.reads.imp (fun hreads => ⟨hreads.1, .cons hnode hreads.2⟩) (EndsOpen.cons hnode)

theorem Span.between_add (start width : Nat) : Span.between start (start + width) = ⟨start, start + width⟩ := by
  rw [Span.between, Nat.max_eq_right (Nat.le_add_right _ _)]

theorem textNode_of_ne_nil {value : List Char} (h : value ≠ []) (start width : Nat) :
    textNode value start (start + width) = [.text (String.ofList value) ⟨start, start + width⟩] := by
  rw [textNode, List.isEmpty_eq_false_iff.mpr h, Span.between_add]
  rfl

/-- Literal text in front of a tiling that starts with a script, or at the end. -/
theorem Tiling.textNode {text : List Char}
    (h : Tiling (start + byteLength front) text slices nodes faults)
    (hplain : opensScript front = false) (hnext : ∀ next ∈ nodes.head?, next.isText = false)
    (hlast : slices ≠ [] → front.getLast? ≠ some '\\') :
    ∃ slices', Tiling start (front ++ text) slices'
      (Template.textNode (unescaped front) start (start + byteLength front) ++ nodes) faults := by
  by_cases hfront : front = []
  · subst hfront
    exact ⟨slices, h⟩
  · rw [textNode_of_ne_nil (unescaped_ne_nil hfront)]
    exact ⟨front :: slices, h.cons (.text _ hplain) rfl (fun next hmem => .inr (hnext next hmem)) hlast⟩

/-- A script that is not closed, behind literal text. -/
theorem Tiling.unclosed {rest : List Char} (hplain : opensScript front = false)
    (hlast : front.getLast? ≠ some '\\') (hrest : Unclosed rest) :
    Tiling start (front ++ rest) [front ++ rest]
      (Template.textNode (unescaped front ++ rest) start (start + byteLength front + byteLength rest))
      [⟨.unclosedDelimiter '\x7b',
        Span.between (start + byteLength front) (start + byteLength front + byteLength rest)⟩] := by
  have hvalue : unescaped front ++ rest ≠ [] := by
    obtain ⟨sign, after, rfl, -⟩ := hrest.opens
    simp
  rw [Span.between_add, Nat.add_assoc, ← byteLength_append, textNode_of_ne_nil hvalue]
  exact ⟨List.flatten_singleton, rfl, .singleton _, fun _ h => (nomatch h),
    .inr (.mk _ .nil hplain hlast hrest)⟩

/-- A script whose brace no scan finds the end of. -/
theorem unclosed_of_group? (hsign : sign = '#' ∨ sign = '!') {after : List Char}
    (h : group? ('\x7b' :: after) = none) : Unclosed (sign :: '\x7b' :: after) where
  opens := ⟨sign, after, rfl, hsign⟩
  unmatched := by
    intro sign' inner rest hinner heq
    obtain ⟨-, hafter⟩ := List.cons.inj heq
    rw [hafter, group?_balanced rfl hinner] at h
    cases h

/-- A script that is closed. -/
theorem stands_of_group? (hsign : sign = '#' ∨ sign = '!') {after inner rest : List Char}
    (h : group? ('\x7b' :: after) = some (inner, rest)) (s : Span) :
    Stands (sign :: '\x7b' :: (inner ++ ['\x7d']))
      (.code (String.ofList (trim inner)) (if sign == '#' then .escaped else .unescaped) [] s) := by
  have hinner := balanced_of_group? h
  rcases hsign with rfl | rfl
  · exact .hash s hinner
  · exact .bang s hinner

/-- Each step cuts off literal text and the script behind it. -/
theorem pieces_tiling (n start : Nat) (cs : List Char) (hn : cs.length < n) :
    ∃ slices, Tiling start cs slices (pieces n start cs).1 (pieces n start cs).2 := by
  induction n generalizing start cs with
  | zero => cases hn
  | succ n ih =>
    obtain ⟨front, hsplit, hvalue, hplain, hends⟩ := literal_reads cs
    have hbytes : (literal cs).bytes = byteLength front := literal_bytes hsplit
    simp only [pieces, hvalue, hbytes]
    -- What the literal leaves decides the step: nothing, or a script.
    generalize (literal cs).rest = rest at hsplit hends ⊢
    subst hsplit
    rcases hends with rfl | ⟨⟨sign, after, rfl, hsign⟩, hlast⟩
    · simpa using (Tiling.nil _).textNode hplain (fun _ h => by cases h) (fun h => absurd rfl h)
    · simp only
      cases hgroup : group? ('\x7b' :: after) with
      | none => exact ⟨_, .unclosed hplain hlast (unclosed_of_group? hsign hgroup)⟩
      | some pair =>
        obtain ⟨inner, rest⟩ := pair
        have hlength := (interpolates_of_sign hsign inner).2
        have hstands := stands_of_group? hsign hgroup
        have hwritten : sign :: '\x7b' :: after = sign :: '\x7b' :: (inner ++ ['\x7d']) ++ rest := by
          rw [group?_brace hgroup]
          simp
        have hfinal : (sign :: '\x7b' :: (inner ++ ['\x7d'])).getLast? ≠ some '\\' := by
          rw [List.getLast?_cons_cons, List.getLast?_cons, List.getLast?_concat]
          simp
        have hrest : rest.length < n := by
          simp only [hwritten, List.length_append, List.length_cons] at hn
          omega
        simp only [Nat.add_assoc _ (byteLength inner), ← hlength]
        rw [hwritten]
        -- Of the script only its width and its last character matter from here on.
        generalize sign :: '\x7b' :: (inner ++ ['\x7d']) = written at hstands hfinal ⊢
        obtain ⟨slices, htiling⟩ := ih (start + byteLength front + byteLength written) rest hrest
        have hcode := htiling.cons (hstands _) (Span.between_add _ _) (fun _ _ => .inl rfl) (fun _ => hfinal)
        exact hcode.textNode hplain (fun next hnext => Option.some.inj hnext ▸ rfl) (fun _ => hlast)

/-- No step gives an empty text. -/
theorem pieces_filled (n start : Nat) (cs : List Char) (s : Span) :
    Node.text "" s ∉ (pieces n start cs).1 := by
  have htext (value : List Char) (start stop : Nat) : Node.text "" s ∉ textNode value start stop := by
    intro hmem
    unfold textNode at hmem
    split at hmem
    · cases hmem
    · rename_i hvalue
      obtain ⟨hempty, -⟩ := Node.text.inj (List.mem_singleton.mp hmem)
      rw [← String.ofList_nil, String.ofList_inj] at hempty
      subst hempty
      exact hvalue rfl
  induction n generalizing start cs with
  | zero => exact List.not_mem_nil
  | succ n ih =>
    simp only [pieces]
    split
    · exact htext _ _ _
    · split
      · exact htext _ _ _
      · rw [List.mem_append, List.mem_cons]
        rintro (hmem | hmem | hmem)
        · exact htext _ _ _ hmem
        · cases hmem
        · exact ih _ _ hmem

/-- **Interpolation loses no character.** The nodes of a text tile it. Only the node of an empty text
is empty. -/
theorem interpolated_tiling (text : List Char) (start : Nat) :
    (∀ s, Node.text "" s ∈ (interpolated text start).1 → text = []) ∧
      ∃ slices, Tiling start text slices (interpolated text start).1 (interpolated text start).2 := by
  have hfilled := pieces_filled (text.length + 1) start text
  obtain ⟨slices, htiling⟩ := pieces_tiling (text.length + 1) start text (Nat.lt_succ_self _)
  unfold interpolated
  split
  · rename_i faults hempty
    rw [hempty] at htiling
    -- No node means an empty text, for which an empty one is put in.
    have hslices : slices = [] := by
      cases slices with
      | nil => rfl
      | cons slice slices => cases htiling.spans
    have htext : text = [] := by rw [← htiling.flatten, hslices, List.flatten_nil]
    subst htext
    have hfaults : faults = [] := (congrArg Prod.snd hempty).symm
    have hnode : Stands [] (.text "" (Span.empty start)) := .text _ rfl
    refine ⟨fun _ _ => rfl, [[]], ?_⟩
    rw [hfaults]
    exact (Tiling.nil _).cons hnode rfl (fun _ h => (nomatch h)) (fun h => absurd rfl h)
  · exact ⟨fun s hmem => absurd hmem (hfilled s), slices, htiling⟩

end PugComponents.Template
