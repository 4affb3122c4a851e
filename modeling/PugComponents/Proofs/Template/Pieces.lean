import PugComponents.Proofs.Template.Boundaries

/- The pieces of a text. Text with interpolations is cut into stretches from left
   to right: literal text, and scripts between braces. Each node of the result
   covers its own stretch of the text, in their order (`interpolated_cut`); so in
   a text that stands in the source each node stands where its span says. -/
namespace PugComponents.Template

open Text

theorem group?_brace {cs inner rest : List Char} (h : group? ('\x7b' :: cs) = some (inner, rest)) :
    cs = inner ++ '\x7d' :: rest := by
  obtain ⟨opener, closer, hopen, htext⟩ := group?_eq_some h
  obtain ⟨rfl, rfl⟩ := List.cons.inj htext
  rw [← Option.some.inj hopen]

/-! ## Literal text -/

/-- A sign and a brace open a script. -/
def OpensScript (cs : List Char) : Prop :=
  ∃ sign after, cs = sign :: '\x7b' :: after ∧ (sign = '#' ∨ sign = '!')

/-- Literal text goes up to the end or to the next script, and takes its bytes in the source. -/
theorem literal_split (cs : List Char) :
    ∃ front, cs = front ++ (literal cs).rest ∧ byteLength front = (literal cs).bytes ∧
      ((literal cs).rest = [] ∨ OpensScript (literal cs).rest) := by
  have hescaped (sign : Char) (hsign : sign.utf8Size = 1) (front : List Char) :
      byteLength ('\\' :: sign :: '\x7b' :: front) = byteLength front + 3 := by
    simp only [byteLength, hsign]
    show 1 + (1 + (1 + byteLength front)) = _
    omega
  fun_induction literal cs with
  | case1 => exact ⟨[], rfl, rfl, .inl rfl⟩
  | case2 cs l ih =>
    obtain ⟨front, hcs, hbytes, hrest⟩ := ih
    refine ⟨'\\' :: '#' :: '\x7b' :: front, congrArg ('\\' :: '#' :: '\x7b' :: ·) hcs, ?_, hrest⟩
    rw [hescaped '#' rfl, hbytes]
  | case3 cs l ih =>
    obtain ⟨front, hcs, hbytes, hrest⟩ := ih
    refine ⟨'\\' :: '!' :: '\x7b' :: front, congrArg ('\\' :: '!' :: '\x7b' :: ·) hcs, ?_, hrest⟩
    rw [hescaped '!' rfl, hbytes]
  | case4 cs => exact ⟨[], rfl, rfl, .inr ⟨'#', cs, rfl, .inl rfl⟩⟩
  | case5 cs => exact ⟨[], rfl, rfl, .inr ⟨'!', cs, rfl, .inr rfl⟩⟩
  | case6 c cs _ _ _ _ l ih =>
    obtain ⟨front, hcs, hbytes, hrest⟩ := ih
    refine ⟨c :: front, congrArg (c :: ·) hcs, ?_, hrest⟩
    rw [byteLength, hbytes, Nat.add_comm]

/-! ## Nodes of a text -/

/-- How an interpolation is written: a sign, and the script between braces. -/
inductive Interpolates : CodeKind → String → List Char → Prop
  | hash (inner : List Char) :
    Interpolates .escaped (String.ofList (trim inner)) ('#' :: '\x7b' :: (inner ++ ['\x7d']))
  | bang (inner : List Char) :
    Interpolates .unescaped (String.ofList (trim inner)) ('!' :: '\x7b' :: (inner ++ ['\x7d']))

/-- A text, or an interpolation that is written as the given characters. -/
inductive Node.IsPiece (written : List Char) : Node → Prop
  | text (value : String) (s : Span) : Node.IsPiece written (.text value s)
  | code {value : String} {kind : CodeKind} (s : Span) (h : Interpolates kind value written) :
    Node.IsPiece written (.code value kind [] s)

/-- The span is that of the characters `written` in a text that starts at `start`. -/
def Span.CutFrom (start : Nat) (text written : List Char) (s : Span) : Prop :=
  ∃ front back, text = front ++ written ++ back ∧ s.start = start + byteLength front ∧
    s.stop = start + byteLength front + byteLength written

/-- The nodes and the faults of a text that starts at `start`: each has its stretch of the text, and
the nodes come in their order. -/
structure Cut (start : Nat) (text : List Char) (r : List Node × List Fault) : Prop where
  nodes : ∀ node ∈ r.1, ∃ written, node.IsPiece written ∧ node.span.CutFrom start text written
  faults : ∀ f ∈ r.2, ∃ written, f.span.CutFrom start text written
  ordered : r.1.Pairwise fun a b => a.span.start ≤ b.span.start

variable {written : List Char} {s : Span}

theorem Span.CutFrom.behind {start : Nat} {text front : List Char}
    (h : s.CutFrom (start + byteLength front) text written) :
    s.CutFrom start (front ++ text) written := by
  obtain ⟨before, back, htext, hstart, hstop⟩ := h
  refine ⟨front ++ before, back, ?_, ?_, ?_⟩
  · rw [htext]
    simp
  · rw [hstart, byteLength_append, Nat.add_assoc]
  · rw [hstop, byteLength_append]
    omega

theorem Span.CutFrom.start_le {start : Nat} {text : List Char} (h : s.CutFrom start text written) :
    start ≤ s.start := by
  obtain ⟨front, back, -, hstart, -⟩ := h
  omega

theorem Span.cutFrom_between (start : Nat) (front written back : List Char) :
    (Span.between (start + byteLength front) (start + byteLength front + byteLength written)).CutFrom
      start (front ++ written ++ back) written :=
  ⟨front, back, rfl, rfl, Span.between_stop (Nat.le_add_right _ _)⟩

namespace Cut

variable {start : Nat} {text : List Char}

/-- Literal text at the front. -/
theorem textNode (front back value : List Char) :
    Cut start (front ++ back) (Template.textNode value start (start + byteLength front), []) := by
  unfold Template.textNode
  split
  · exact ⟨fun _ h => (nomatch h), fun _ h => (nomatch h), .nil⟩
  · refine ⟨?_, fun _ h => (nomatch h), List.pairwise_singleton _ _⟩
    intro node hnode
    obtain rfl := List.mem_singleton.mp hnode
    exact ⟨front, .text _ _, Span.cutFrom_between start [] front back⟩

/-- What stands behind the front of a text comes after what stands in it. -/
theorem append {front back : List Char} {a b : List Node} {fa fb : List Fault}
    (ha : Cut start (front ++ back) (a, fa)) (hfront : ∀ node ∈ a, node.span.start ≤ start + byteLength front)
    (hb : Cut (start + byteLength front) back (b, fb)) : Cut start (front ++ back) (a ++ b, fa ++ fb) where
  nodes := by
    intro node hnode
    rcases List.mem_append.mp hnode with hnode | hnode
    · exact ha.nodes node hnode
    · obtain ⟨written, hpiece, hspan⟩ := hb.nodes node hnode
      exact ⟨written, hpiece, hspan.behind⟩
  faults := by
    intro f hf
    rcases List.mem_append.mp hf with hf | hf
    · exact ha.faults f hf
    · obtain ⟨written, hspan⟩ := hb.faults f hf
      exact ⟨written, hspan.behind⟩
  ordered := by
    refine List.pairwise_append.mpr ⟨ha.ordered, hb.ordered, ?_⟩
    intro x hx y hy
    obtain ⟨written, -, hspan⟩ := hb.nodes y hy
    exact Nat.le_trans (hfront x hx) hspan.start_le

theorem nil : Cut start text ([], []) :=
  ⟨fun _ h => (nomatch h), fun _ h => (nomatch h), .nil⟩

/-- A script at the front. -/
theorem code {kind : CodeKind} {value : String} (h : Interpolates kind value written)
    (back : List Char) :
    Cut start (written ++ back)
      ([.code value kind [] (Span.between start (start + byteLength written))], []) := by
  refine ⟨?_, fun _ h => (nomatch h), List.pairwise_singleton _ _⟩
  intro node hnode
  obtain rfl := List.mem_singleton.mp hnode
  exact ⟨written, .code _ h, Span.cutFrom_between start [] written back⟩

/-- A script that is not closed is text to the end. -/
theorem unclosed (front rest value : List Char) :
    Cut start (front ++ rest)
      (Template.textNode value start (start + byteLength front + byteLength rest),
        [⟨.unclosedDelimiter '\x7b',
          Span.between (start + byteLength front) (start + byteLength front + byteLength rest)⟩]) := by
  have htext : Cut start (front ++ rest ++ []) _ := textNode (front ++ rest) [] value
  rw [List.append_nil, byteLength_append, ← Nat.add_assoc] at htext
  refine ⟨htext.nodes, ?_, htext.ordered⟩
  intro f hf
  obtain rfl := List.mem_singleton.mp hf
  have hspan := Span.cutFrom_between start front rest []
  rw [List.append_nil] at hspan
  exact ⟨rest, hspan⟩

end Cut

theorem textNode_start {value : List Char} {start stop : Nat} :
    ∀ node ∈ textNode value start stop, node.span.start = start := by
  intro node hnode
  unfold textNode at hnode
  split at hnode
  · cases hnode
  · obtain rfl := List.mem_singleton.mp hnode
    rfl

/-- The script between the braces after a sign. -/
theorem interpolates_of_sign {sign : Char} (hsign : sign = '#' ∨ sign = '!') (inner : List Char) :
    Interpolates (if sign == '#' then .escaped else .unescaped) (String.ofList (trim inner))
        (sign :: '\x7b' :: (inner ++ ['\x7d'])) ∧
      byteLength (sign :: '\x7b' :: (inner ++ ['\x7d'])) = byteLength inner + 3 := by
  have hbytes (hsize : sign.utf8Size = 1) :
      byteLength (sign :: '\x7b' :: (inner ++ ['\x7d'])) = byteLength inner + 3 := by
    simp only [byteLength, byteLength_append, hsize]
    show 1 + (1 + (byteLength inner + 1)) = _
    omega
  rcases hsign with rfl | rfl
  · exact ⟨.hash inner, hbytes rfl⟩
  · exact ⟨.bang inner, hbytes rfl⟩

/-- Each step cuts off literal text and the script behind it. -/
theorem pieces_cut (n start : Nat) (cs : List Char) : Cut start cs (pieces n start cs) := by
  induction n generalizing start cs with
  | zero => exact .nil
  | succ n ih =>
    obtain ⟨front, hcs, hbytes, hrest⟩ := literal_split cs
    simp only [pieces, ← hbytes]
    generalize (literal cs).rest = rest at hcs hrest ⊢
    subst hcs
    rcases hrest with rfl | ⟨sign, after, rfl, hsign⟩
    · exact .textNode front [] _
    · simp only
      cases hgroup : group? ('\x7b' :: after) with
      | none => exact .unclosed front _ _
      | some pair =>
        obtain ⟨inner, rest⟩ := pair
        obtain ⟨hwrites, hlength⟩ := interpolates_of_sign hsign inner
        have hafter : sign :: '\x7b' :: after = sign :: '\x7b' :: (inner ++ ['\x7d']) ++ rest := by
          rw [group?_brace hgroup]
          simp
        rw [hafter]
        have hstop : start + byteLength front + byteLength inner + 3 =
            start + byteLength front + byteLength (sign :: '\x7b' :: (inner ++ ['\x7d'])) := by
          rw [hlength, Nat.add_assoc _ (byteLength inner)]
        simp only [hstop]
        generalize sign :: '\x7b' :: (inner ++ ['\x7d']) = written at hwrites ⊢
        have hscript : Cut (start + byteLength front) (written ++ rest) _ := Cut.code hwrites rest
        have hcode := hscript.append (by simp [Node.span, Span.between]) (ih _ rest)
        refine (Cut.textNode front (written ++ rest) _).append ?_ hcode
        intro node hnode
        rw [textNode_start node hnode]
        exact Nat.le_add_right _ _

/-- Every node of a text has its own stretch of it, and so has every fault. -/
theorem interpolated_cut (text : List Char) (start : Nat) : Cut start text (interpolated text start) := by
  have hpieces := pieces_cut (text.length + 1) start text
  unfold interpolated
  split
  · rename_i faults hempty
    rw [hempty] at hpieces
    refine ⟨?_, hpieces.faults, List.pairwise_singleton _ _⟩
    intro node hnode
    obtain rfl := List.mem_singleton.mp hnode
    exact ⟨[], .text _ _, [], text, rfl, rfl, rfl⟩
  · exact hpieces

/-! ## Texts in the source -/

theorem Span.CutFrom.holds {source text : List Char} {start : Nat}
    (h : s.CutFrom start text written) (htext : (⟨start, text⟩ : Place).Within source) :
    s.Holds source written := by
  obtain ⟨front, back, hcut, hstart, hstop⟩ := h
  obtain ⟨before, after, hsource, hoffset⟩ := htext
  have hoffset : start = byteLength before := hoffset
  refine ⟨before ++ front, back ++ after, ?_, ?_, ?_⟩
  · rw [hsource, hcut]
    simp
  · rw [hstart, hoffset, byteLength_append]
  · rw [hstop, hoffset, byteLength_append]

theorem Span.CutFrom.stop_le {text : List Char} {start : Nat} (h : s.CutFrom start text written) :
    s.stop ≤ start + byteLength text := by
  obtain ⟨front, back, hcut, -, hstop⟩ := h
  rw [hcut, hstop, byteLength_append, byteLength_append]
  omega

end PugComponents.Template
