import PugComponents.Proofs.Jsx.Reading
import PugComponents.Proofs.Text.Quoting

/- Reading back the leaves of a module: names, strings, keys, lists with commas
   and parameters. `Settles f a` says that a reader gives `a` once its bound on
   nested calls is large enough. -/
namespace PugComponents.Jsx

open Text

/-! ## Bounds that are large enough -/

variable {α β γ : Type}

/-- The reader gives `a` whenever its bound is large enough. -/
def Settles (f : Nat → Option α) (a : α) : Prop := ∃ bound, ∀ n, bound ≤ n → f n = some a

variable {s : List Char}

namespace Settles

theorem of_eq {f : Nat → Option α} {a : α} (h : ∀ n, f n = some a) : Settles f a :=
  ⟨0, fun n _ => h n⟩

/-- It is enough to look at bounds that allow one call. -/
theorem succ {f : Nat → Option α} {a : α} (h : Settles (fun n => f (n + 1)) a) : Settles f a := by
  obtain ⟨bound, h⟩ := h
  refine ⟨bound + 1, fun n hn => ?_⟩
  obtain ⟨m, rfl⟩ : ∃ m, n = m + 1 := ⟨n - 1, by omega⟩
  exact h m (by omega)

theorem bind {f : Nat → Option α} {g : Nat → α → Option β} {a : α} {b : β} (hf : Settles f a)
    (hg : Settles (fun n => g n a) b) : Settles (fun n => f n >>= g n) b := by
  obtain ⟨boundF, hf⟩ := hf
  obtain ⟨boundG, hg⟩ := hg
  refine ⟨max boundF boundG, fun n hn => ?_⟩
  have hfn := hf n (by omega)
  have hgn := hg n (by omega)
  simp only [hfn]
  exact hgn

/-- A text that the reader expects is there. -/
theorem expect {g : Nat → List Char → Option β} {b : β} (p : List Char)
    (hg : Settles (fun n => g n s) b) : Settles (fun n => dropPrefix? p (p ++ s) >>= g n) b :=
  bind (.of_eq fun _ => dropPrefix?_append p s) hg

/-- Two readings of one text agree. -/
theorem unique {f : Nat → Option α} {a b : α} (ha : Settles f a) (hb : Settles f b) : a = b := by
  obtain ⟨boundA, ha⟩ := ha
  obtain ⟨boundB, hb⟩ := hb
  have h := (ha (max boundA boundB) (by omega)).symm.trans (hb (max boundA boundB) (by omega))
  exact Option.some.inj h

end Settles

/-! ## Characters -/

/-- The text does not start with a character of a class. -/
def Stops (p : Char → Bool) (s : List Char) : Prop := ∀ c ∈ s.head?, p c = false

theorem Stops.nil (p : Char → Bool) : Stops p [] := fun _ h => nomatch h

variable {c : Char}

theorem stops_cons {p : Char → Bool} : Stops p (c :: s) ↔ p c = false := by
  simp [Stops]

theorem takeWhile_stops {p : Char → Bool} {front : List Char} (hfront : ∀ c ∈ front, p c = true)
    (hs : Stops p s) : (front ++ s).takeWhile p = front := by
  rw [List.takeWhile_append_of_pos hfront]
  cases s with
  | nil => simp
  | cons c s => simp [stops_cons.mp hs]

theorem dropWhile_stops {p : Char → Bool} {front : List Char} (hfront : ∀ c ∈ front, p c = true)
    (hs : Stops p s) : (front ++ s).dropWhile p = s := by
  rw [List.dropWhile_append_of_pos hfront]
  cases s with
  | nil => rfl
  | cons c s => simp [stops_cons.mp hs]

/-! ## Names -/

variable {name : String}

/-- A plain name as the characters of its text. -/
theorem isName_iff :
    isName name = true ↔
      ∃ c cs, name = String.ofList (c :: cs) ∧ c.isAlpha = true ∧ ∀ d ∈ cs, d.isAlphanum = true := by
  unfold isName
  constructor
  · intro h
    split at h
    · cases h
    · rename_i c cs hlist
      simp only [Bool.and_eq_true, List.all_eq_true] at h
      exact ⟨c, cs, by rw [← hlist, String.ofList_toList], h⟩
  · rintro ⟨c, cs, rfl, hc, hcs⟩
    simp [hc, List.all_eq_true.mpr hcs]

theorem readName_append (hname : isName name = true) (hs : Stops Char.isAlphanum s) :
    readName (name.toList ++ s) = some (name, s) := by
  obtain ⟨c, cs, rfl, hc, hcs⟩ := isName_iff.mp hname
  simp only [String.toList_ofList, List.cons_append, readName, hc, if_true]
  rw [takeWhile_stops hcs hs, dropWhile_stops hcs hs]

theorem readName_none (h : c.isAlpha = false) (s : List Char) : readName (c :: s) = none := by
  simp [readName, h]

/-- Letters and digits can stand in identifiers. -/
theorem continuesIdentifier_of_isAlphanum (h : c.isAlphanum = true) :
    continuesIdentifier c = true := by
  have hletter (d : Char) (hd : d.toNat < 128) (hcd : c.val ≤ d.val) : c.toNat < 128 :=
    Nat.lt_of_le_of_lt (UInt32.le_iff_toNat_le.mp hcd) hd
  have hclass : ((c.isUpper || c.isLower) || c.isDigit) = true := h
  simp only [Bool.or_eq_true] at hclass
  have hascii : c.toNat < 128 := by
    rcases hclass with (hupper | hlower) | hdigit
    · exact hletter 'Z' (by decide) (of_decide_eq_true hupper).2
    · exact hletter 'z' (by decide) (of_decide_eq_true (Bool.and_eq_true_iff.mp hlower).2)
    · exact Nat.lt_of_le_of_lt (Char.isDigit_iff_toNat.mp hdigit).2 (by decide)
  have hall : ∀ n : Fin 128, (Char.ofNat n).isAlphanum = true →
      continuesIdentifier (Char.ofNat n) = true := by decide
  have hc := hall ⟨c.toNat, hascii⟩
  rw [Char.ofNat_toNat] at hc
  exact hc h

/-! ## Strings and keys -/

theorem toList_quoted (value : String) :
    (quoted value).toList = '"' :: (escape value.toList ++ ['"']) := by
  simp [quoted]

theorem readString_quoted (value : String) (s : List Char) :
    readString ((quoted value).toList ++ s) = some (value, s) := by
  rw [toList_quoted]
  simp only [List.cons_append, List.append_assoc, List.nil_append, readString, Json.string?_escape,
    String.ofList_toList]

theorem readKey_identifier {key : List Char} (hne : key ≠ [])
    (hkey : ∀ c ∈ key, continuesIdentifier c = true) (hs : Stops continuesIdentifier s) :
    readKey (key ++ s) = some (String.ofList key, s) := by
  unfold readKey
  rw [takeWhile_stops hkey hs, dropWhile_stops hkey hs]
  cases key with
  | nil => exact absurd rfl hne
  | cons c cs => rfl

theorem readKey_quoted (key : String) (s : List Char) :
    readKey ((quoted key).toList ++ s) = some (key, s) := by
  have hquote : continuesIdentifier '"' = false := by decide
  have hstring := readString_quoted key s
  rw [toList_quoted] at *
  simp only [List.cons_append] at *
  unfold readKey
  simp only [List.takeWhile_cons, hquote, Bool.false_eq_true, if_false]
  exact hstring

theorem continuesIdentifier_of_isIdentifier {cs : List Char} (h : isIdentifier cs = true) :
    cs ≠ [] ∧ ∀ c ∈ cs, continuesIdentifier c = true := by
  cases cs with
  | nil => cases h
  | cons c cs =>
    simp only [isIdentifier, Bool.and_eq_true, List.all_eq_true] at h
    refine ⟨by simp, ?_⟩
    rintro d (_ | ⟨_, hd⟩)
    · have hstart := h.1
      simp only [startsIdentifier, Bool.or_eq_true] at hstart
      simp only [continuesIdentifier, isAlphanumeric, Bool.or_eq_true]
      rcases hstart with (hstart | hstart) | hstart
      · exact .inl (.inl (.inl hstart))
      · exact .inl (.inr hstart)
      · exact .inr hstart
    · exact h.2 d hd

theorem readKey_propertyKey (key : String) (hs : Stops continuesIdentifier s) :
    readKey ((propertyKey key).toList ++ s) = some (key, s) := by
  unfold propertyKey
  split
  · rename_i h
    obtain ⟨hne, hkey⟩ := continuesIdentifier_of_isIdentifier h
    rw [readKey_identifier hne hkey hs, String.ofList_toList]
  · exact readKey_quoted key s

theorem readKey_name (hname : isName name = true) (hs : Stops continuesIdentifier s) :
    readKey (name.toList ++ s) = some (name, s) := by
  obtain ⟨c, cs, rfl, hc, hcs⟩ := isName_iff.mp hname
  have hall : ∀ d ∈ c :: cs, continuesIdentifier d = true := by
    rintro d (_ | ⟨_, hd⟩)
    · exact continuesIdentifier_of_isAlphanum (by simp [Char.isAlphanum, hc])
    · exact continuesIdentifier_of_isAlphanum (hcs d hd)
  rw [String.toList_ofList]
  exact readKey_identifier (by simp) hall hs

/-! ## Lists with commas -/

theorem toList_joinWith_cons (first : String) (second : String) (rest : List String) :
    (joinWith ", " (first :: second :: rest)).toList =
      first.toList ++ ',' :: ' ' :: (joinWith ", " (second :: rest)).toList := by
  simp [joinWith]

/-- Items with commas between them are read back, if each item is, and after each item and after
the list comes what ends an item. -/
theorem readSeparated_joinWith (item : Nat → List Char → Option (α × List Char))
    (print : β → String) (value : β → α) {Ends : List Char → Prop}
    (hcomma : ∀ s, Ends (',' :: ' ' :: s)) (hs : Ends s) (hlast : dropPrefix? [',', ' '] s = none)
    (xs : List β) (hne : xs ≠ [])
    (hitem : ∀ x ∈ xs, ∀ s, Ends s → Settles (fun n => item n ((print x).toList ++ s)) (value x, s)) :
    Settles (fun n => readSeparated (item n) n ((joinWith ", " (xs.map print)).toList ++ s))
      (xs.map value, s) := by
  -- the bound on the number of items is kept apart from the bound of the items
  suffices h : ∃ bound, ∀ n, bound ≤ n → ∀ k, xs.length ≤ k →
      readSeparated (item n) k ((joinWith ", " (xs.map print)).toList ++ s) =
        some (xs.map value, s) by
    obtain ⟨bound, h⟩ := h
    exact ⟨max bound xs.length, fun n hn => h n (by omega) n (by omega)⟩
  induction xs with
  | nil => exact absurd rfl hne
  | cons x xs ih =>
    cases xs with
    | nil =>
      obtain ⟨bound, hx⟩ := hitem x List.mem_cons_self s hs
      refine ⟨bound, fun n hn k hk => ?_⟩
      obtain ⟨k, rfl⟩ : ∃ m, k = m + 1 := ⟨k - 1, by simp at hk; omega⟩
      simp only [List.map_cons, List.map_nil, joinWith, readSeparated, hx n hn, bind, Option.bind,
        hlast]
    | cons y xs =>
      obtain ⟨boundX, hx⟩ := hitem x List.mem_cons_self
        (',' :: ' ' :: ((joinWith ", " ((y :: xs).map print)).toList ++ s)) (hcomma _)
      obtain ⟨boundXs, hxs⟩ := ih (by simp) fun z hz => hitem z (List.mem_cons_of_mem x hz)
      refine ⟨max boundX boundXs, fun n hn k hk => ?_⟩
      obtain ⟨k, rfl⟩ : ∃ m, k = m + 1 := ⟨k - 1, by simp at hk; omega⟩
      have hrest := hxs n (by omega) k (by simpa using hk)
      have hdrop (s : List Char) : dropPrefix? [',', ' '] (',' :: ' ' :: s) = some s := by
        simp [dropPrefix?]
      simp only [List.map_cons, toList_joinWith_cons, List.append_assoc, List.cons_append] at hx hrest ⊢
      simp only [readSeparated, hx n (by omega), bind, Option.bind, hdrop, hrest]

/-! ## Parameters -/

/-- What follows a binding: a comma, or the space before the closing brace. -/
def EndsBinding (s : List Char) : Prop := (∃ t, s = ',' :: t) ∨ ∃ t, s = ' ' :: '\x7d' :: t

theorem readBinding_render {b : String × String} (hname : isName b.2 = true) (hs : EndsBinding s) :
    readBinding ((renderBinding b).toList ++ s) = some (b, s) := by
  have hstop : Stops continuesIdentifier s ∧ Stops Char.isAlphanum s ∧
      dropPrefix? [':', ' '] s = none := by
    obtain ⟨t, rfl⟩ | ⟨t, rfl⟩ := hs
    · exact ⟨stops_cons.mpr (by decide), stops_cons.mpr (by decide), by simp [dropPrefix?]⟩
    · exact ⟨stops_cons.mpr (by decide), stops_cons.mpr (by decide), by simp [dropPrefix?]⟩
  obtain ⟨key, name⟩ := b
  unfold renderBinding readBinding
  by_cases hkey : key = name
  · subst hkey
    simp only [beq_self_eq_true, if_true, readKey_name hname hstop.1, bind, Option.bind, hstop.2.2]
  · have hcolon : Stops continuesIdentifier (':' :: ' ' :: (name.toList ++ s)) :=
      stops_cons.mpr (by decide)
    have hread := readKey_propertyKey key hcolon
    simp only [beq_iff_eq, hkey, if_false, String.toList_append, List.append_assoc]
    rw [show ": ".toList = [':', ' '] from rfl, List.cons_append, List.cons_append, List.nil_append,
      hread]
    simp only [bind, Option.bind, dropPrefix?, beq_self_eq_true, if_true,
      readName_append hname hstop.2.1]

theorem toList_joinWith_head (first : String) (rest : List String) :
    ∃ t, (joinWith ", " (first :: rest)).toList = first.toList ++ t := by
  cases rest with
  | nil => exact ⟨[], by simp [joinWith]⟩
  | cons second rest => exact ⟨_, toList_joinWith_cons first second rest⟩

/-- A key starts with no space. -/
theorem propertyKey_head (key : String) : ∃ c t, (propertyKey key).toList = c :: t ∧ c ≠ ' ' := by
  unfold propertyKey
  split
  · rename_i h
    obtain ⟨hne, hkey⟩ := continuesIdentifier_of_isIdentifier h
    cases hlist : key.toList with
    | nil => exact absurd hlist hne
    | cons c t =>
      refine ⟨c, t, rfl, fun hc => ?_⟩
      have hspace := hkey c (by rw [hlist]; exact List.mem_cons_self)
      rw [hc] at hspace
      exact absurd hspace (by decide)
  · exact ⟨'"', _, toList_quoted key, by decide⟩

/-- A name starts with none of the characters between names. -/
theorem isName_head (h : isName name = true) :
    ∃ c t, name.toList = c :: t ∧ ∀ d : Char, d.isAlpha = false → c ≠ d := by
  obtain ⟨c, cs, rfl, hc, _⟩ := isName_iff.mp h
  refine ⟨c, cs, String.toList_ofList, fun d hd => ?_⟩
  rintro rfl
  rw [hc] at hd
  cases hd

theorem renderBinding_head {b : String × String} (h : isName b.2 = true) :
    ∃ c t, (renderBinding b).toList = c :: t ∧ c ≠ ' ' := by
  unfold renderBinding
  split
  · obtain ⟨c, t, hlist, hc⟩ := isName_head h
    exact ⟨c, t, hlist, hc ' ' (by decide)⟩
  · obtain ⟨c, t, hlist, hc⟩ := propertyKey_head b.1
    exact ⟨c, t ++ (": ".toList ++ b.2.toList), by simp [hlist], hc⟩

/-- What follows a parameter: a comma, or the closing parenthesis. -/
def EndsParam (s : List Char) : Prop := (∃ t, s = ',' :: t) ∨ ∃ t, s = ')' :: t

/-- A text that does not start with a brace can only be a parameter that is a name. -/
theorem readParam_ne_brace (n : Nat) (hc : c ≠ '\x7b') (s : List Char) :
    readParam n (c :: s) = (readName (c :: s)).map fun (name, s) => (.ident name, s) := by
  unfold readParam
  split
  · rename_i heq
    exact absurd (List.cons.inj heq).1 hc
  · rename_i heq
    exact absurd (List.cons.inj heq).1 hc
  · cases readName (c :: s) <;> rfl

theorem readParam_name (n : Nat) (hname : isName name = true) (hs : Stops Char.isAlphanum s) :
    readParam n (name.toList ++ s) = some (.ident name, s) := by
  obtain ⟨c, t, hlist, hc⟩ := isName_head hname
  have hread := readName_append hname hs
  rw [hlist, List.cons_append] at hread ⊢
  rw [readParam_ne_brace n (hc '\x7b' (by decide)), hread]
  rfl

theorem readParam_pattern (n : Nat) (hc : c ≠ ' ') (s : List Char) :
    readParam n ('\x7b' :: ' ' :: c :: s) = (readSeparated readBinding n (c :: s) >>= fun x =>
      dropPrefix? [' ', '\x7d'] x.2 >>= fun s => some (.destructured x.1, s)) := by
  unfold readParam
  split
  · rename_i heq
    simp only [List.cons.injEq] at heq
    exact absurd heq.2.2.1 hc
  · rename_i heq
    simp only [List.cons.injEq, true_and] at heq
    rw [heq]
  · rename_i hne
    exact absurd rfl (hne (c :: s))

theorem readArrowHead_open (n : Nat) (hc : c ≠ ')') (s : List Char) :
    readArrowHead n ('(' :: c :: s) = (readSeparated (readParam n) n (c :: s) >>= fun x =>
      dropPrefix? [')', ' ', '=', '>', ' '] x.2 >>= fun s => some (x.1, s)) := by
  unfold readArrowHead
  split
  · rename_i heq
    simp only [List.cons.injEq, true_and] at heq
    exact absurd heq.1 hc
  · rename_i heq
    simp only [List.cons.injEq, true_and] at heq
    rw [heq]
  · rename_i hne
    exact absurd rfl (hne (c :: s))

theorem readParam_render {p : Param} (hp : p.isPlain = true) (hs : EndsParam s) :
    Settles (fun n => readParam n (p.render.toList ++ s)) (p, s) := by
  have hstop : Stops Char.isAlphanum s := by
    obtain ⟨t, rfl⟩ | ⟨t, rfl⟩ := hs <;> exact stops_cons.mpr (by decide)
  cases p with
  | ident name => exact .of_eq fun n => readParam_name n hp hstop
  | destructured bindings =>
    cases bindings with
    | nil => exact .of_eq fun n => by simp [Param.render, joinWith, braced, readParam]
    | cons b bs =>
      have hnames : ∀ x ∈ b :: bs, isName x.2 = true := List.all_eq_true.mp hp
      have hlist := readSeparated_joinWith (fun _ => readBinding) renderBinding id
        (fun s => Or.inl ⟨' ' :: s, rfl⟩) (Or.inr ⟨s, rfl⟩) (by simp [dropPrefix?]) (b :: bs)
        (by simp) (fun x hx s hs => .of_eq fun _ => readBinding_render (hnames x hx) hs)
      obtain ⟨c, t, hb, hc⟩ := renderBinding_head (hnames b List.mem_cons_self)
      obtain ⟨u, hjoin⟩ := toList_joinWith_head (renderBinding b) (bs.map renderBinding)
      have htext : (Param.destructured (b :: bs)).render.toList ++ s =
          '\x7b' :: ' ' :: ((joinWith ", " ((b :: bs).map renderBinding)).toList ++ ' ' :: '\x7d' :: s) := by
        simp [Param.render, braced]
      have hopen : (joinWith ", " ((b :: bs).map renderBinding)).toList = c :: (t ++ u) := by
        rw [List.map_cons, hjoin, hb, List.cons_append]
      simp only [htext, hopen, List.cons_append] at hlist ⊢
      simp only [readParam_pattern _ hc]
      refine hlist.bind (.of_eq fun n => ?_)
      simp [dropPrefix?]

/-- The text of a parameter does not close the list of parameters. -/
theorem Param.render_head {p : Param} (hp : p.isPlain = true) :
    ∃ c t, p.render.toList = c :: t ∧ c ≠ ')' := by
  cases p with
  | ident name =>
    obtain ⟨c, t, hlist, hc⟩ := isName_head hp
    exact ⟨c, t, hlist, hc ')' (by decide)⟩
  | destructured bindings => exact ⟨'\x7b', _, by simp [Param.render, braced]; rfl, by decide⟩

theorem readArrowHead_params {params : List Param} (hparams : params.all Param.isPlain = true)
    (s : List Char) :
    Settles (fun n => readArrowHead n ('(' :: ((renderParams params).toList ++
      ')' :: ' ' :: '=' :: '>' :: ' ' :: s))) (params, s) := by
  cases params with
  | nil => exact .of_eq fun n => by simp [renderParams, joinWith, readArrowHead, dropPrefix?]
  | cons p ps =>
    have hplain : ∀ q ∈ p :: ps, q.isPlain = true := List.all_eq_true.mp hparams
    have hlist := readSeparated_joinWith readParam Param.render id
      (fun s => Or.inl ⟨' ' :: s, rfl⟩) (Or.inr ⟨_, rfl⟩) (by simp [dropPrefix?]) (p :: ps)
      (by simp) (fun q hq _ hs => readParam_render (hplain q hq) hs)
      (s := ')' :: ' ' :: '=' :: '>' :: ' ' :: s)
    obtain ⟨c, t, hp, hc⟩ := Param.render_head (hplain p List.mem_cons_self)
    obtain ⟨u, hjoin⟩ := toList_joinWith_head p.render (ps.map Param.render)
    have hopen : (renderParams (p :: ps)).toList = c :: (t ++ u) := by
      rw [renderParams, List.map_cons, hjoin, hp, List.cons_append]
    rw [← renderParams] at hlist
    simp only [hopen, List.cons_append] at hlist ⊢
    simp only [readArrowHead_open _ hc]
    refine hlist.bind (.of_eq fun n => ?_)
    simp [dropPrefix?]

end PugComponents.Jsx
