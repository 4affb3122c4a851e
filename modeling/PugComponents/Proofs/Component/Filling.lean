import PugComponents.Proofs.Component.Bindings

/- Files that fill the slots of a layout. The blocks of one name are scattered
   over the document and combined while it is read; what is left of them is
   lowered at the end. Seen by name, the content of a block is a fold over the
   blocks of that name alone (`blockContents_eq`). `convert_fills_slots`: the
   component runs the statements from outside the blocks, declares a constant for
   each name and renders the layout with them; whatever else stands outside is
   warned of. -/
namespace PugComponents.Component

open Component.Lower (bind_ok result_pure_eq_ok)
open Link (Role importOf roleOf slotName)
open Script (SnippetReader)
open Template (Node BlockMode Document direct_mem_occurrences)

/-! ## Content by name -/

/-- The mode and the nodes of a node that is a block of this name. -/
def filling? (name : String) : Node → Option (BlockMode × List Node)
  | .namedBlock other mode nodes _ => if other = name then some (mode, nodes) else none
  | _ => none

/-- The content of a block after a further block of its name. -/
def refill (content : List Node) : BlockMode × List Node → List Node
  | (.replace, nodes) => nodes
  | (.append, nodes) => content ++ nodes
  | (.prepend, nodes) => nodes ++ content

/-- The content of a block: the blocks of its name, one after the other, from nothing. -/
def contentFor (name : String) (nodes : List Node) : List Node :=
  (nodes.filterMap (filling? name)).foldl refill []

theorem refill_eq (content : List Node) (mode : BlockMode) (nodes : List Node) :
    refill content (mode, nodes) = blockContent mode nodes content := by
  cases mode <;> rfl

theorem contentFor_concat_block (name other : String) (mode : BlockMode) (content nodes : List Node)
    (span : Template.Span) :
    contentFor name (nodes ++ [.namedBlock other mode content span]) =
      if name = other then blockContent mode content (contentFor name nodes)
      else contentFor name nodes := by
  simp only [contentFor, List.filterMap_append]
  by_cases hname : name = other
  · simp [filling?, hname, refill_eq]
  · simp [filling?, hname, Ne.symm hname]

/-- A block that does not occur has no content. -/
theorem contentFor_eq_nil {d : Document} {name : String} (h : name ∉ d.namedBlocks.map (·.1)) :
    contentFor name d.nodes = [] := by
  have hnone : d.nodes.filterMap (filling? name) = [] := by
    refine List.filterMap_eq_nil_iff.mpr fun node hnode => ?_
    cases node with
    | namedBlock other mode nodes span =>
      have hother : other ≠ name := by
        rintro rfl
        exact h (List.mem_map.mpr ⟨(other, mode), List.mem_filterMap.mpr ⟨_, hnode, rfl⟩, rfl⟩)
      simp [filling?, hother]
    | _ => rfl
  rw [contentFor, hnone, List.foldl_nil]

/-- Adding a block to contents by name changes the content of its own name only. -/
theorem addBlock_map {names : List String} (hnodup : names.Nodup) (content : String → List Node)
    (name : String) (mode : BlockMode) (new : List Node) (hnew : name ∉ names → content name = []) :
    addBlock name mode new (names.map fun n => (n, content n)) =
      (names ++ if name ∈ names then [] else [name]).map fun n =>
        (n, if n = name then blockContent mode new (content n) else content n) := by
  induction names with
  | nil => simp [addBlock, hnew]
  | cons first rest ih =>
    obtain ⟨hfirst, hrest⟩ := List.nodup_cons.mp hnodup
    by_cases hsame : first = name
    · subst hsame
      -- the rest has other names, so its contents stay
      have hothers : rest.map (fun n => (n, content n)) = rest.map fun n =>
          (n, if n = first then blockContent mode new (content n) else content n) := by
        refine List.map_congr_left fun n hn => ?_
        rw [if_neg (ne_of_mem_of_not_mem hn hfirst)]
      simp [addBlock, hothers]
    · have hmem : name ∈ first :: rest ↔ name ∈ rest := by simp [Ne.symm hsame]
      simp only [hmem, List.map_cons, List.cons_append, addBlock, beq_iff_eq, hsame, if_false]
      rw [ih hrest fun h => hnew (mt hmem.mp h)]

/-- The contents that are gathered along the document are those of the names, each where it first
occurs. -/
theorem blockContents_eq (d : Document) :
    blockContents d.nodes =
      (distinct (d.namedBlocks.map (·.1))).map fun name => (name, contentFor name d.nodes) := by
  obtain ⟨nodes, length⟩ := d
  induction nodes using List.reverseRecOn with
  | nil => rfl
  | append_singleton nodes node ih =>
    simp only [Document.namedBlocks, blockContents, List.foldl_append, List.filterMap_append,
      List.map_append] at ih ⊢
    cases node with
    | namedBlock name mode new span =>
      show addBlock name mode new _ = (distinct (_ ++ [name])).map _
      rw [ih, addBlock_map (nodup_distinct _) _ name mode new, distinct_concat]
      · simp only [mem_distinct]
        refine List.map_congr_left fun n _ => ?_
        rw [contentFor_concat_block]
      · intro hname
        rw [mem_distinct] at hname
        exact contentFor_eq_nil (d := ⟨nodes, length⟩) hname
    | _ =>
      have hsame (name : String) (other : Node) (hother : filling? name other = none) :
          contentFor name (nodes ++ [other]) = contentFor name nodes := by
        simp [contentFor, hother]
      show _ = (distinct (_ ++ [])).map _
      rw [List.append_nil]
      refine ih.trans (List.map_congr_left fun n _ => ?_)
      rw [hsame n _ rfl]

/-! ## Nodes outside blocks -/

/-- The warning is about content outside blocks. -/
def Warning.isIgnored (w : Warning) : Bool :=
  match w.cause with
  | .outsideBlock _ => true
  | _ => false

/-- The target is markup: a child, or an expression that renders one. A statement, an import and the
place of something empty are not. -/
def Target.isMarkup : Target → Bool
  | .child _ | .bare _ => true
  | .statement _ | .imported _ | .placeholder => false

/-- The warning that a node outside blocks is ignored, if there is markup among its targets. -/
def ignored? (node : Node) (targets : List Target) : Option Warning :=
  if targets.any Target.isMarkup then some ⟨.outsideBlock node.kind, node.span⟩ else none

theorem rendersSomething_eq (targets : List Target) :
    rendersSomething targets = targets.any Target.isMarkup := by
  refine congrArg targets.any (funext fun t => ?_)
  cases t <;> rfl

theorem warnings_warnIgnored (node : Node) (targets : List Target) :
    (warnIgnored node targets).journal.warnings = (ignored? node targets).toList := by
  unfold warnIgnored ignored?
  rw [rendersSomething_eq]
  split <;> rfl

theorem filter_isIgnored_ignored? (node : Node) (targets : List Target) :
    (ignored? node targets).toList.filter Warning.isIgnored = (ignored? node targets).toList := by
  unfold ignored?
  split <;> rfl

/-- No occurrence is warned of as ignored. -/
theorem filter_isIgnored_warningAt? (occs : List Template.Occurrence) :
    (occs.filterMap warningAt?).filter Warning.isIgnored = [] := by
  refine List.filter_eq_nil_iff.mpr fun w hw hignored => ?_
  obtain ⟨o, -, ho⟩ := List.mem_filterMap.mp hw
  unfold Warning.isIgnored at hignored
  split at hignored
  · rename_i kind hcause
    exact warningAt?_cause_ne ho kind hcause
  · cases hignored

variable {setting : Setting}

/-- The nodes outside blocks give their targets one after the other, and each that would render
something is warned of. -/
theorem lowerOutside_eq_ok {nodes : List Node} {targets : List Target}
    (h : (lowerOutside setting nodes).result = .ok targets) :
    ∃ lowered,
      List.Forall₂ (fun node ts => (lowerNodes setting true [node]).result = .ok ts)
        (nodes.filter standsOutside) lowered ∧
      targets = lowered.flatten ∧
      (lowerOutside setting nodes).journal.warnings.filter Warning.isIgnored =
        ((nodes.filter standsOutside).zip lowered).filterMap fun r => ignored? r.1 r.2 := by
  induction nodes generalizing targets with
  | nil => exact ⟨[], .nil, (result_pure_eq_ok.mp h).symm, rfl⟩
  | cons node rest ih =>
    cases hnode : standsOutside node with
    | false =>
      rw [lowerOutside_block hnode] at h ⊢
      rw [List.filter_cons_of_neg (by simp [hnode])]
      exact ih h
    | true =>
      obtain ⟨ts, more, hts, hmore, rfl⟩ := lowerOutside_cons_eq_ok hnode h
      obtain ⟨lowered, hlowered, rfl, hrest⟩ := ih hmore
      rw [List.filter_cons_of_pos hnode]
      refine ⟨ts :: lowered, .cons hts hlowered, rfl, ?_⟩
      have hnone : (lowerNodes setting true [node]).journal.warnings.filter Warning.isIgnored = [] := by
        rw [(lowerNodes_accounts true [node]).warns ts hts]
        exact filter_isIgnored_warningAt? _
      rw [lowerOutside_cons hnode, bind_ok hts, bind_ok (result_warnIgnored node ts), bind_ok hmore]
      simp only [Journal.warnings_append, List.filter_append, hnone, hrest, warnings_warnIgnored,
        filter_isIgnored_ignored?]
      rw [List.zip_cons_cons, List.filterMap_cons]
      cases ignored? node ts <;> simp [Journal.warnings, Journal.empty]

/-! ## The component -/

/-- A file that fills slots names the layout that it renders at its top level. -/
theorem exists_extends_of_slotFiller {d : Document} {base : String} (h : roleOf d = .slotFiller base) :
    ∃ reference span, .extendsFile reference span ∈ d.nodes ∧ (importOf reference).name = base := by
  unfold roleOf at h
  split at h
  · rename_i reference hlayout
    split at h
    · cases h
    · obtain ⟨node, hnode, hreference⟩ := List.exists_of_findSome?_eq_some hlayout
      split at hreference
      · rename_i file span
        obtain rfl := Option.some.inj hreference
        exact ⟨file, span, hnode, Role.slotFiller.inj h⟩
      · cases hreference
  · split at h <;> cases h

/-- **Slot filling.** A file that fills slots is converted to a component whose body is the statements
of the nodes outside its blocks, in order, then a constant for each block name where it first occurs,
then the layout with an attribute for each name in that order. The constant of a name is a function
without parameters whose body is what the content of the block is lowered to: the blocks of that
name, one after the other. Of the nodes outside the blocks those that would render something are
warned of, once each, and no other; and the module imports the layout. -/
theorem convert_fills_slots (reader : SnippetReader) (file : Option String) (d : Document) (m : Module)
    (base : String) (hrole : (contextOf file d).role = .slotFiller base)
    (h : (convert reader file d).result = .ok m) :
    ∃ names stray outside filled,
      names = (d.namedBlocks.map (·.1)).eraseDups ∧
      stray = d.nodes.filter standsOutside ∧
      List.Forall₂ (fun node ts => (lowerNodes ⟨reader, false⟩ true [node]).result = .ok ts)
        stray outside ∧
      List.Forall₂ (fun name ts =>
        (lowerNodes ⟨reader, false⟩ false (contentFor name d.nodes)).result = .ok ts) names filled ∧
      m.program.body =
        outside.flatten.filterMap Target.statement? ++
        names.zipWith (fun name ts => .binding (slotName name) (.blockArrow [] (bodyOf ts))) filled ++
        [.result (.markup (.element base
          (names.map fun name => .value name (.ident (slotName name))) [] true))] ∧
      m.warnings.filter Warning.isIgnored =
        (stray.zip outside).filterMap (fun r => ignored? r.1 r.2) ∧
      base ∈ m.program.imports.map (·.name) := by
  obtain ⟨x, y, targets, slots, rfl, rfl, htargets, hslots, hwarnings, hprogram⟩ :=
    convert_slotFiller hrole h
  obtain ⟨outside, houtside, rfl, hignored⟩ := lowerOutside_eq_ok htargets
  obtain ⟨filled, hfilled, rfl⟩ := lowerBlocks_eq_ok hslots
  refine ⟨_, _, outside, filled, rfl, rfl, houtside, ?_, ?_, ?_, ?_⟩
  · rw [blockContents_eq, distinct_eq_eraseDups, List.forall₂_map_left_iff] at hfilled
    exact hfilled
  · rw [hprogram]
    simp only [moduleOf, blockContents_eq, distinct_eq_eraseDups, List.map_map, List.zipWith_map_left,
      List.map_zipWith]
    rfl
  · rw [hwarnings, List.filter_append, hignored, (lowerBlocks_accounts _).warns _ hslots,
      filter_isIgnored_warningAt?, List.append_nil]
  · rw [role_contextOf] at hrole
    obtain ⟨reference, span, hnode, hname⟩ := exists_extends_of_slotFiller hrole
    refine List.mem_map.mpr ⟨importOf reference, ?_, hname⟩
    refine (mem_imports_convert h).mpr ⟨⟨.extendsFile reference span, true⟩, ?_, rfl⟩
    rw [converted_of_slotFiller hrole]
    refine List.mem_append_left _ (direct_mem_occurrences.mpr ?_)
    exact List.mem_filter.mpr ⟨hnode, rfl⟩

/-- The blocks of `main` are scattered between a mixin, a stray element and another block. -/
def scatteredBlocks : Document :=
  ⟨[.extendsFile ⟨"layouts/base", none⟩ ⟨0, 20⟩,
    .namedBlock "main" .replace [.text "b" ⟨36, 37⟩] ⟨21, 31⟩,
    .mixinDefinition "card" none [.text "c" ⟨53, 54⟩] ⟨38, 48⟩,
    .namedBlock "head" .append [.text "h" ⟨69, 70⟩] ⟨55, 66⟩,
    .tag "p" [] [] [] false ⟨71, 72⟩,
    .namedBlock "main" .prepend [.text "a" ⟨90, 91⟩] ⟨73, 85⟩], 92⟩

theorem scatteredBlocks_filled : (contextOf none scatteredBlocks).role = .slotFiller "Base" ∧
    contentFor "main" scatteredBlocks.nodes = [.text "a" ⟨90, 91⟩, .text "b" ⟨36, 37⟩] ∧
    ∃ m, (convert noScript none scatteredBlocks).result = .ok m ∧
      m.program.body =
        [.binding "card" (.blockArrow [] [.result (.fragment [.text "c"])]),
          .binding "Main" (.blockArrow [] [.result (.fragment [.text "a", .text "b"])]),
          .binding "Head" (.blockArrow [] [.result (.fragment [.text "h"])]),
          .result (.markup (.element "Base"
            [.value "main" (.ident "Main"), .value "head" (.ident "Head")] [] true))] ∧
      m.warnings.filter Warning.isIgnored = [⟨.outsideBlock "Tag", ⟨71, 72⟩⟩] ∧
      "Base" ∈ m.program.imports.map (·.name) := by
  obtain ⟨names, stray, outside, filled, rfl, rfl, houtside, hfilled, hbody, hwarnings, hbase⟩ :=
    convert_fills_slots noScript none scatteredBlocks _ "Base" (by decide) rfl
  -- three nodes stand outside the blocks, and there are two names
  obtain _ | ⟨hlayout, _ | ⟨hmixin, _ | ⟨hstray, _ | _⟩⟩⟩ := houtside
  cases hlayout
  cases hmixin
  cases hstray
  obtain _ | ⟨hmain, _ | ⟨hhead, _ | _⟩⟩ := hfilled
  cases hmain
  cases hhead
  exact ⟨by decide, rfl, _, rfl, hbody, hwarnings, hbase⟩

end PugComponents.Component
