import LoopNest.Proofs.CommittedPrograms

/-! # Commands read from their own texts

  The text of a command is a few words with one blank between them, and a list is written as one word,
  its items with commas between them. Reading cuts a text at blanks and commas and drops what is empty,
  so many spellings lead to one command.

  * **Cuts**: pieces that hold no separator are found again, the empty ones apart
    (`Text.parts_intercalate`).
  * **Numbers**: a number is read from its digits (`Command.number?_toDigits`), so constants and
    dimensions are read from what is written for them.
  * **Commands**: what is read from a text consists of words, of items and of counts
    (`Command.legible_of_ofText`), and such a command is read from its own text
    (`Command.Legible.ofText_text`).

  There is one exception. A list without items is written as nothing, and then a word is missing. A text
  such as `reorder ,` is read as a command with such a list, which is not read from its own text
  (`Command.emptied_not_reread`). -/

namespace LoopNest

/-! ## Cuts -/

namespace Text

variable {sep : Char → Bool}

/-- The parts between separators that are not empty. -/
def parts (sep : Char → Bool) (cs : List Char) : List (List Char) :=
  (cut sep [] cs).filter (!·.isEmpty)

theorem words_eq (s : String) : words s = (parts isBlank s.toList).map String.ofList := rfl

theorem items_eq (d : Char) (s : String) :
    items d s = (parts (· == d) s.toList).map String.ofList := rfl

/-- What holds no separator is added to the word that is being read. -/
theorem cut_append {w : List Char} (hw : ∀ c ∈ w, sep c = false) :
    ∀ word rest : List Char, cut sep word (w ++ rest) = cut sep (w.reverse ++ word) rest := by
  induction w with
  | nil => exact fun _ _ => rfl
  | cons c w ih =>
    intro word rest
    rw [List.cons_append, cut, hw c List.mem_cons_self, if_neg Bool.false_ne_true,
      ih fun d hd => hw d (List.mem_cons_of_mem c hd)]
    simp

/-- What is cut out holds no separator. -/
theorem of_mem_cut : ∀ {cs word w : List Char}, (∀ c ∈ word, sep c = false) → w ∈ cut sep word cs →
    ∀ c ∈ w, sep c = false := by
  intro cs
  induction cs with
  | nil =>
    intro word w hWord hw
    rw [List.mem_singleton.mp hw]
    exact fun c hc => hWord c (List.mem_reverse.mp hc)
  | cons d cs ih =>
    intro word w hWord hw
    rw [cut] at hw
    split at hw
    · rcases List.mem_cons.mp hw with rfl | hw
      · exact fun c hc => hWord c (List.mem_reverse.mp hc)
      · exact ih (fun c hc => absurd hc List.not_mem_nil) hw
    · rename_i hd
      exact ih (List.forall_mem_cons.mpr ⟨by simpa using hd, hWord⟩) hw

theorem of_mem_parts {cs w : List Char} (hw : w ∈ parts sep cs) :
    w ≠ [] ∧ ∀ c ∈ w, sep c = false := by
  obtain ⟨hw, hSome⟩ := List.mem_filter.mp hw
  exact ⟨by simpa using hSome, of_mem_cut (fun c hc => absurd hc List.not_mem_nil) hw⟩

/-- Characters that are cut out are characters of the text. -/
theorem mem_of_mem_cut : ∀ {cs word w : List Char} {c : Char}, w ∈ cut sep word cs → c ∈ w →
    c ∈ word ∨ c ∈ cs := by
  intro cs
  induction cs with
  | nil =>
    intro word w c hw hc
    rw [List.mem_singleton.mp hw] at hc
    exact .inl (List.mem_reverse.mp hc)
  | cons d cs ih =>
    intro word w c hw hc
    rw [cut] at hw
    split at hw
    · rcases List.mem_cons.mp hw with rfl | hw
      · exact .inl (List.mem_reverse.mp hc)
      · rcases ih hw hc with hNone | hc
        · exact absurd hNone List.not_mem_nil
        · exact .inr (List.mem_cons_of_mem d hc)
    · rcases ih hw hc with hHere | hc
      · rcases List.mem_cons.mp hHere with rfl | hWord
        · exact .inr List.mem_cons_self
        · exact .inl hWord
      · exact .inr (List.mem_cons_of_mem d hc)

/-- **Cuts**: pieces without separators that are written with one separator between them are found
    again, the empty ones apart. -/
theorem parts_intercalate {d : Char} (hd : sep d = true) : ∀ {ws : List (List Char)},
    (∀ w ∈ ws, ∀ c ∈ w, sep c = false) → parts sep ([d].intercalate ws) = ws.filter (!·.isEmpty) := by
  intro ws
  induction ws with
  | nil => exact fun _ => rfl
  | cons w ws ih =>
    intro hWs
    obtain ⟨hw, hRest⟩ := List.forall_mem_cons.mp hWs
    cases ws with
    | nil =>
      have hOne := cut_append hw [] []
      rw [List.append_nil, List.append_nil, cut, List.reverse_reverse] at hOne
      rw [List.intercalate_singleton, parts, hOne]
    | cons w' ws =>
      have hCut := cut_append hw [] ([d] ++ [d].intercalate (w' :: ws))
      rw [List.singleton_append, cut, hd, if_pos rfl, List.append_nil, List.reverse_reverse] at hCut
      rw [List.intercalate_cons_cons, List.append_assoc, List.singleton_append, parts, hCut,
        List.filter_cons, List.filter_cons, ← ih hRest]
      rfl

theorem toList_list (d : Char) (texts : List String) :
    (list (String.singleton d) texts).toList = [d].intercalate (texts.map String.toList) := by
  rw [list, String.toList_intercalate, String.toList_singleton]

end Text

/-! ## Numbers -/

namespace Command

theorem digit?_of_isDigit {c : Char} (h : c.isDigit = true) : digit? c = some (c.toNat - '0'.toNat) := by
  have hBounds : '0' ≤ c ∧ c ≤ '9' := by
    simp only [Char.isDigit, Bool.and_eq_true, decide_eq_true_eq] at h
    exact h
  rw [digit?, if_pos hBounds]

theorem digits?_eq {cs : List Char} (h : ∀ c ∈ cs, c.isDigit = true) :
    ∀ acc : Nat, digits? acc cs = some (Nat.ofDigitChars 10 cs acc) := by
  induction cs with
  | nil => exact fun _ => rfl
  | cons c cs ih =>
    intro acc
    obtain ⟨hHead, hTail⟩ := List.forall_mem_cons.mp h
    rw [digits?, digit?_of_isDigit hHead, Nat.ofDigitChars_cons]
    exact ih hTail _

theorem isDigit_of_mem_toDigits {n : Nat} {c : Char} (h : c ∈ Nat.toDigits 10 n) : c.isDigit = true :=
  Nat.isDigit_of_mem_toDigits (by decide) (by decide) h

/-- **Numbers**: a number is read from its digits. -/
theorem number?_toDigits (n : Nat) : number? (Nat.toDigits 10 n) = some n := by
  have hDigits := digits?_eq (fun c => isDigit_of_mem_toDigits (n := n) (c := c)) 0
  rw [Nat.ofDigitChars_ten_toDigits] at hDigits
  cases hChars : Nat.toDigits 10 n with
  | nil => exact absurd hChars Nat.toDigits_ne_nil
  | cons c cs =>
    exact (number?.eq_2 (c :: cs) (List.cons_ne_nil c cs)).trans (hChars ▸ hDigits)

/-- The digits of a number start with no sign. -/
theorem toDigits_head_ne {n : Nat} {d : Char} (hd : d.isDigit = false) (cs : List Char) :
    Nat.toDigits 10 n ≠ d :: cs := by
  intro h
  have hDigit := isDigit_of_mem_toDigits (n := n) (h ▸ List.mem_cons_self)
  rw [hd] at hDigit
  cases hDigit

theorem toList_natText (n : Nat) : (toString n).toList = Nat.toDigits 10 n := by
  rw [Nat.toString_eq_repr, Nat.toList_repr]

/-- A dimension is read from its digits. -/
theorem dimension?_toString {n : Nat} (hn : n < Word.naturals) : dimension? (toString n) = some n := by
  rw [dimension?, toList_natText]
  split
  · rename_i hChars
    exact absurd hChars (toDigits_head_ne (by decide) _)
  · rw [number?_toDigits]
    exact if_pos hn

/-- A constant is read from what is written for it. -/
theorem constant?_toString {v : Int} (hv : Word.fits v = true) : constant? (toString v) = some v := by
  have hChecked : Word.checked v = some v := Word.checked_eq_some.mpr ⟨hv, rfl⟩
  rw [constant?, Int.toString_eq_repr, Int.repr_eq_if]
  by_cases hSign : 0 ≤ v
  · have hNat : (v.toNat : Int) = v := Int.toNat_of_nonneg hSign
    rw [if_pos hSign, Nat.toList_repr]
    split
    · rename_i hChars
      exact absurd hChars (toDigits_head_ne (by decide) _)
    · rename_i hChars
      exact absurd hChars (toDigits_head_ne (by decide) _)
    · rw [number?_toDigits]
      show Word.checked (v.toNat : Int) = some v
      rw [hNat, hChecked]
  · have hNat : ((-v).toNat : Int) = -v := Int.toNat_of_nonneg (by omega)
    rw [if_neg hSign, String.toList_append, Nat.toList_repr]
    show (do Word.checked (-((← number? (Nat.toDigits 10 (-v).toNat)) : Nat))) = some v
    rw [number?_toDigits]
    show Word.checked (-((-v).toNat : Int)) = some v
    rw [hNat, Int.neg_neg, hChecked]

/-! ## What is read -/

/-- A text without blanks. -/
def Unbroken (s : String) : Prop := ∀ c ∈ s.toList, Text.isBlank c = false

/-- A text that is read as one word. -/
structure IsWord (s : String) : Prop where
  some : s.toList ≠ []
  unbroken : Unbroken s

/-- A word that is read as one item of a list. -/
structure IsItem (s : String) : Prop extends IsWord s where
  single : ∀ c ∈ s.toList, (c == ',') = false

/-- A count that is read from a text: a constant of the word, or a name that is no constant. -/
inductive IsCount : Expr → Prop where
  | constant {v : Int} : Word.fits v = true → IsCount (.int v)
  | name {x : String} : Unbroken x → constant? x = none → IsCount (.var x)

/-- A command whose parts are words, items and counts. -/
inductive Legible : Command → Prop where
  | reorder {order : List String} : (∀ x ∈ order, IsItem x) → Legible (.reorder order)
  | factor {l : String} {c : Expr} : IsWord l → IsCount c → Legible (.split l (some c) none)
  | parts {l : String} {c : Expr} : IsWord l → IsCount c → Legible (.split l none (some c))
  | parallelize {l tag : String} : IsWord l → IsWord tag → Legible (.parallelize l tag)
  | fission {l after : String} : IsWord l → IsWord after → Legible (.fission l after)
  | varReorder {l : String} {order : List Nat} : IsWord l → (∀ n ∈ order, n < Word.naturals) →
      Legible (.varReorder l order)
  | inline : Legible .inline

/-- Whether the command has an item where it has a list. -/
def hasItems : Command → Bool
  | reorder order => !order.isEmpty
  | varReorder _ order => !order.isEmpty
  | _ => true

theorem isWord_of_mem_words {s w : String} (hw : w ∈ Text.words s) : IsWord w := by
  obtain ⟨cs, hcs, rfl⟩ := List.mem_map.mp (Text.words_eq s ▸ hw)
  obtain ⟨hSome, hUnbroken⟩ := Text.of_mem_parts hcs
  refine ⟨?_, ?_⟩
  · rwa [String.toList_ofList]
  · unfold Unbroken
    rwa [String.toList_ofList]

theorem isItem_of_mem_items {s w : String} (hs : Unbroken s) (hw : w ∈ Text.items ',' s) :
    IsItem w := by
  obtain ⟨cs, hcs, rfl⟩ := List.mem_map.mp (Text.items_eq ',' s ▸ hw)
  obtain ⟨hSome, hSingle⟩ := Text.of_mem_parts hcs
  refine ⟨⟨?_, ?_⟩, ?_⟩
  · rwa [String.toList_ofList]
  · intro c hc
    rw [String.toList_ofList] at hc
    rcases Text.mem_of_mem_cut (List.mem_filter.mp hcs).1 hc with hNone | hc
    · exact absurd hNone List.not_mem_nil
    · exact hs c hc
  · rwa [String.toList_ofList]

/-- The value behind an equals sign is part of the argument. -/
theorem unbroken_of_keyValue? {arg key value : String} (hArg : Unbroken arg)
    (h : keyValue? arg = some (key, value)) : Unbroken value := by
  unfold keyValue? at h
  split at h
  · cases h
  · rename_i d rest hRest
    obtain ⟨-, rfl⟩ := Prod.mk.inj (Option.some.inj h)
    intro c hc
    rw [String.toList_ofList] at hc
    refine hArg c ?_
    exact (List.dropWhile_sublist (p := (· != '=')) (l := arg.toList)).subset
      (hRest ▸ List.mem_cons_of_mem d hc)

theorem isCount_count {s : String} (hs : Unbroken s) : IsCount (count s) := by
  unfold count
  cases hConstant : constant? s with
  | none => exact .name hs hConstant
  | some v =>
    refine .constant ?_
    unfold constant? at hConstant
    split at hConstant
    all_goals
      obtain ⟨n, _, hChecked⟩ := Option.bind_eq_some_iff.mp hConstant
      obtain ⟨hFits, rfl⟩ := Word.checked_eq_some.mp hChecked
      exact hFits

theorem lt_naturals_of_dimension? {s : String} {n : Nat} (h : dimension? s = some n) :
    n < Word.naturals := by
  unfold dimension? at h
  split at h
  all_goals
    obtain ⟨k, _, h⟩ := Option.bind_eq_some_iff.mp h
    obtain ⟨hk, hEq⟩ := Option.ite_none_right_eq_some.mp h
    exact Option.some.inj hEq ▸ hk

theorem lt_naturals_of_dimensions : ∀ {ds : List String} {ns : List Nat}, dimensions ds = .ok ns →
    ∀ n ∈ ns, n < Word.naturals := by
  intro ds
  induction ds with
  | nil =>
    intro ns h
    cases h
    exact fun n hn => absurd hn List.not_mem_nil
  | cons d ds ih =>
    intro ns h
    rw [dimensions] at h
    split at h
    · cases h
    · rename_i n hn
      cases hRest : dimensions ds with
      | error e =>
        rw [hRest] at h
        cases h
      | ok rest =>
        rw [hRest] at h
        cases h
        exact List.forall_mem_cons.mpr ⟨lt_naturals_of_dimension? hn, ih hRest⟩

theorem legible_of_ofWords {whole : String} {ws : List String} (hWords : ∀ w ∈ ws, IsWord w)
    {c : Command} (h : ofWords whole ws = .ok c) : c.Legible := by
  unfold ofWords at h
  split at h
  case h_1 order =>
    cases h
    exact .reorder fun x => isItem_of_mem_items (hWords order (by simp)).unbroken
  case h_2 l arg =>
    have hLabel := hWords l (by simp)
    have hArg := (hWords arg (by simp)).unbroken
    split at h
    · cases h
    · rename_i value hKey
      cases h
      exact .factor hLabel (isCount_count (unbroken_of_keyValue? hArg hKey))
    · rename_i value hKey
      cases h
      exact .parts hLabel (isCount_count (unbroken_of_keyValue? hArg hKey))
    · cases h
  case h_3 l tag =>
    cases h
    exact .parallelize (hWords l (by simp)) (hWords tag (by simp))
  case h_4 l after =>
    cases h
    exact .fission (hWords l (by simp)) (hWords after (by simp))
  case h_5 l order =>
    cases hOrder : dimensions (Text.items ',' order) with
    | error e =>
      rw [hOrder] at h
      cases h
    | ok ns =>
      rw [hOrder] at h
      cases h
      exact .varReorder (hWords l (by simp)) (lt_naturals_of_dimensions hOrder)
  case h_6 =>
    cases h
    exact .inline
  case h_7 => cases h
  case h_8 => cases h

theorem ofText_eq_ok {s : String} {c : Command} :
    ofText s = .ok c ↔ ofWords s (Text.words s) = .ok c := by
  unfold ofText
  cases ofWords s (Text.words s) <;> simp [Except.mapError]

/-- **Commands**: what is read consists of words, items and counts. -/
theorem legible_of_ofText {s : String} {c : Command} (h : ofText s = .ok c) : c.Legible :=
  legible_of_ofWords (fun _ => isWord_of_mem_words) (ofText_eq_ok.mp h)

/-! ## What is written -/

/-- The words of a command; a list without items is written as nothing. -/
def written : Command → List String
  | reorder order => ["reorder", Text.list "," order]
  | split l (some c) _ => ["split", l, "factor=" ++ c.text]
  | split l none (some c) => ["split", l, "nparts=" ++ c.text]
  | split l none none => ["split", l]
  | parallelize l tag => ["parallelize", l, tag]
  | fission l after => ["fission", l, after]
  | varReorder l order => ["var_reorder", l, Text.list "," (order.map toString)]
  | inline => ["inline"]

theorem text_eq_list (c : Command) : c.text = Text.list " " c.written := by
  have hKey : ∀ x : String, " factor=" ++ x = " " ++ ("factor=" ++ x) ∧
      " nparts=" ++ x = " " ++ ("nparts=" ++ x) :=
    fun x => ⟨@String.append_assoc " " "factor=" x, @String.append_assoc " " "nparts=" x⟩
  cases c with
  | split l factor nparts =>
    cases factor <;> cases nparts <;>
      simp [text, written, Text.list, String.intercalate_cons_cons, String.append_assoc, hKey]
  | _ => simp [text, written, Text.list, String.intercalate_cons_cons, String.append_assoc]

theorem unbroken_of_all {s : String} (h : s.toList.all (!Text.isBlank ·) = true) : Unbroken s :=
  fun c hc => by simpa using List.all_eq_true.mp h c hc

theorem unbroken_append {s t : String} (hs : Unbroken s) (ht : Unbroken t) : Unbroken (s ++ t) := by
  intro c hc
  rw [String.toList_append] at hc
  rcases List.mem_append.mp hc with hc | hc
  · exact hs c hc
  · exact ht c hc

theorem isBlank_of_isDigit {c : Char} (h : c.isDigit = true) : Text.isBlank c = false := by
  simp only [Char.isDigit, Bool.and_eq_true, decide_eq_true_eq, UInt32.le_iff_toNat_le] at h
  obtain ⟨hLow, hHigh⟩ := h
  have hLow : 48 ≤ c.toNat := hLow
  have hHigh : c.toNat ≤ 57 := hHigh
  simp only [Text.isBlank, Text.wideBlanks, Bool.or_eq_false_iff, Bool.and_eq_false_iff,
    decide_eq_false_iff_not, List.contains_eq_mem, List.mem_cons, List.not_mem_nil, or_false]
  omega

theorem unbroken_natText (n : Nat) : Unbroken (toString n) := by
  intro c hc
  rw [toList_natText] at hc
  exact isBlank_of_isDigit (isDigit_of_mem_toDigits hc)

theorem unbroken_intText (v : Int) : Unbroken (toString v) := by
  rw [Int.toString_eq_repr, Int.repr_eq_if]
  split
  · exact unbroken_natText _
  · exact unbroken_append (unbroken_of_all rfl) (unbroken_natText _)

/-- A number is an item of a list. -/
theorem isItem_natText (n : Nat) : IsItem (toString n) := by
  refine ⟨⟨?_, unbroken_natText n⟩, fun c hc => ?_⟩
  · rw [toList_natText]
    exact Nat.toDigits_ne_nil
  · rw [toList_natText] at hc
    have hDigit := isDigit_of_mem_toDigits hc
    refine beq_eq_false_iff_ne.mpr ?_
    rintro rfl
    cases hDigit

theorem IsCount.unbroken {c : Expr} (h : IsCount c) : Unbroken c.text := by
  cases h with
  | @constant v _ => exact unbroken_intText v
  | name hName _ => exact hName

/-- A count is read from its text. -/
theorem IsCount.count_text {c : Expr} (h : IsCount c) : count c.text = c := by
  cases h with
  | constant hFits => rw [Expr.text, count, constant?_toString hFits]; rfl
  | name _ hNone => rw [Expr.text, count, hNone]; rfl

/-- Items with commas between them hold no blanks. -/
theorem unbroken_list {xs : List String} (h : ∀ x ∈ xs, IsItem x) : Unbroken (Text.list "," xs) := by
  induction xs with
  | nil => exact fun c hc => absurd hc (by simp [Text.list])
  | cons x xs ih =>
    obtain ⟨hHead, hTail⟩ := List.forall_mem_cons.mp h
    cases xs with
    | nil => simpa [Text.list] using hHead.unbroken
    | cons y ys =>
      rw [Text.list, String.intercalate_cons_cons]
      exact unbroken_append (unbroken_append hHead.unbroken (unbroken_of_all rfl)) (ih hTail)

/-- Items are read from the list that is written for them. -/
theorem items_list {xs : List String} (h : ∀ x ∈ xs, IsItem x) :
    Text.items ',' (Text.list "," xs) = xs := by
  have hSingle : ∀ w ∈ xs.map String.toList, ∀ c ∈ w, (c == ',') = false := by
    intro w hw
    obtain ⟨x, hx, rfl⟩ := List.mem_map.mp hw
    exact (h x hx).single
  have hSome : ∀ w ∈ xs.map String.toList, (!w.isEmpty) = true := by
    intro w hw
    obtain ⟨x, hx, rfl⟩ := List.mem_map.mp hw
    simpa using (h x hx).some
  have hParts : Text.parts (· == ',') ([','].intercalate (xs.map String.toList))
      = xs.map String.toList :=
    (@Text.parts_intercalate (· == ',') ',' (beq_self_eq_true ',') _ hSingle).trans
      (List.filter_eq_self.mpr hSome)
  rw [Text.items_eq, show ("," : String) = String.singleton ',' from rfl, Text.toList_list, hParts,
    List.map_map]
  exact (List.map_congr_left fun x _ => String.ofList_toList).trans (List.map_id xs)

/-- A list is written as a word when it has items, and else as nothing. -/
theorem isEmpty_list {xs : List String} (h : ∀ x ∈ xs, IsItem x) :
    (Text.list "," xs).toList.isEmpty = xs.isEmpty := by
  cases xs with
  | nil => simp [Text.list]
  | cons x xs =>
    have hSome := (h x List.mem_cons_self).some
    cases xs with
    | nil => simpa [Text.list] using hSome
    | cons y ys => simp [Text.list, String.intercalate_cons_cons]

theorem dimensions_toString {order : List Nat} (h : ∀ n ∈ order, n < Word.naturals) :
    dimensions (order.map toString) = .ok order := by
  induction order with
  | nil => rfl
  | cons n order ih =>
    obtain ⟨hHead, hTail⟩ := List.forall_mem_cons.mp h
    rw [List.map_cons, dimensions, dimension?_toString hHead, ih hTail]
    rfl

theorem isItem_dimensions (order : List Nat) : ∀ x ∈ order.map toString, IsItem x := by
  intro x hx
  obtain ⟨n, _, rfl⟩ := List.mem_map.mp hx
  exact isItem_natText n

/-- A key and a value are read from an argument. -/
theorem keyValue?_append {key : String} (hKey : key.toList.all (· != '=') = true) (value : String) :
    keyValue? (key ++ "=" ++ value) = some (key, value) := by
  have hChars : (key ++ "=" ++ value).toList = key.toList ++ '=' :: value.toList := by
    simp [String.toList_append]
  unfold keyValue?
  rw [hChars, List.dropWhile_append_of_pos (List.all_eq_true.mp hKey),
    List.takeWhile_append_of_pos (List.all_eq_true.mp hKey)]
  simp

variable {c : Command}

theorem Legible.unbroken_written (h : c.Legible) : ∀ w ∈ c.written, Unbroken w := by
  cases h with
  | reorder hOrder =>
    simp only [written, List.forall_mem_cons]
    exact ⟨unbroken_of_all rfl, unbroken_list hOrder, by simp⟩
  | factor hl hc =>
    simp only [written, List.forall_mem_cons]
    exact ⟨unbroken_of_all rfl, hl.unbroken, unbroken_append (unbroken_of_all rfl) hc.unbroken, by simp⟩
  | parts hl hc =>
    simp only [written, List.forall_mem_cons]
    exact ⟨unbroken_of_all rfl, hl.unbroken, unbroken_append (unbroken_of_all rfl) hc.unbroken, by simp⟩
  | parallelize hl ht =>
    simp only [written, List.forall_mem_cons]
    exact ⟨unbroken_of_all rfl, hl.unbroken, ht.unbroken, by simp⟩
  | fission hl ha =>
    simp only [written, List.forall_mem_cons]
    exact ⟨unbroken_of_all rfl, hl.unbroken, ha.unbroken, by simp⟩
  | varReorder hl _ =>
    simp only [written, List.forall_mem_cons]
    exact ⟨unbroken_of_all rfl, hl.unbroken, unbroken_list (isItem_dimensions _), by simp⟩
  | inline =>
    simp only [written, List.forall_mem_cons]
    exact ⟨unbroken_of_all rfl, by simp⟩

/-- The words of a text are those that were written, the empty ones apart. -/
theorem Legible.words_text (h : c.Legible) :
    Text.words c.text = c.written.filter (!·.toList.isEmpty) := by
  have hUnbroken : ∀ w ∈ c.written.map String.toList, ∀ d ∈ w, Text.isBlank d = false := by
    intro w hw
    obtain ⟨x, hx, rfl⟩ := List.mem_map.mp hw
    exact h.unbroken_written x hx
  rw [text_eq_list, Text.words_eq, show (" " : String) = String.singleton ' ' from rfl,
    Text.toList_list, Text.parts_intercalate (by decide) hUnbroken, List.filter_map, List.map_map]
  exact (List.map_congr_left fun x _ => String.ofList_toList).trans (List.map_id _)

/-- What is written for a command with items is read as the same words. -/
theorem Legible.words_text_of_hasItems (h : c.Legible) (hItems : c.hasItems = true) :
    Text.words c.text = c.written := by
  have hSome : ∀ w ∈ c.written, w.toList.isEmpty = false := by
    cases h with
    | reorder hOrder =>
      simp only [written, List.forall_mem_cons, isEmpty_list hOrder]
      exact ⟨by decide, by simpa [hasItems] using hItems, by simp⟩
    | factor hl _ =>
      simp only [written, List.forall_mem_cons]
      exact ⟨by decide, by simpa using hl.some, by simp, by simp⟩
    | parts hl _ =>
      simp only [written, List.forall_mem_cons]
      exact ⟨by decide, by simpa using hl.some, by simp, by simp⟩
    | parallelize hl ht =>
      simp only [written, List.forall_mem_cons]
      exact ⟨by decide, by simpa using hl.some, by simpa using ht.some, by simp⟩
    | fission hl ha =>
      simp only [written, List.forall_mem_cons]
      exact ⟨by decide, by simpa using hl.some, by simpa using ha.some, by simp⟩
    | varReorder hl _ =>
      simp only [written, List.forall_mem_cons, isEmpty_list (isItem_dimensions _)]
      exact ⟨by decide, by simpa using hl.some, by simpa [hasItems] using hItems, by simp⟩
    | inline =>
      simp only [written, List.forall_mem_cons]
      exact ⟨by decide, by simp⟩
  rw [h.words_text]
  exact List.filter_eq_self.mpr fun w hw => by rw [hSome w hw]; rfl

/-- **Commands**: a command with items is read from its own text. -/
theorem Legible.ofText_text (h : c.Legible) (hItems : c.hasItems = true) : ofText c.text = .ok c := by
  rw [ofText_eq_ok, h.words_text_of_hasItems hItems]
  cases h with
  | reorder hOrder => rw [written, ofWords, items_list hOrder]
  | @factor l c _ hc =>
    rw [written, ofWords, show ("factor=" : String) = "factor" ++ "=" from rfl,
      keyValue?_append rfl]
    show Except.ok (Command.split l (some (count c.text)) none) = _
    rw [hc.count_text]
  | @parts l c _ hc =>
    rw [written, ofWords, show ("nparts=" : String) = "nparts" ++ "=" from rfl,
      keyValue?_append rfl]
    show Except.ok (Command.split l none (some (count c.text))) = _
    rw [hc.count_text]
  | parallelize => rfl
  | fission => rfl
  | varReorder _ hOrder =>
    rw [written, ofWords, items_list (isItem_dimensions _), dimensions_toString hOrder]
    rfl
  | inline => rfl

/-- A command without items is not read from its own text, which lacks a word. -/
theorem Legible.ofText_text_of_emptied (h : c.Legible) (hItems : c.hasItems = false) :
    ∃ op, ofText c.text = .error ⟨.unreadableCommand op (Text.trimmed c.text), .command⟩ := by
  have hWords := h.words_text
  cases h with
  | @reorder order hOrder =>
    obtain rfl : order = [] := by simpa [hasItems] using hItems
    have hOne : Text.words (Command.reorder []).text = ["reorder"] := hWords
    rw [ofText, hOne]
    exact ⟨_, rfl⟩
  | @varReorder l order hl _ =>
    obtain rfl : order = [] := by simpa [hasItems] using hItems
    have hLabel : l.toList.isEmpty = false := by simpa using hl.some
    have hTwo : Text.words (Command.varReorder l []).text = ["var_reorder", l] := by
      rw [hWords]
      show ["var_reorder", l, ""].filter (!·.toList.isEmpty) = _
      simp [hl.some]
    rw [ofText, hTwo]
    exact ⟨_, rfl⟩
  | _ => cases hItems

theorem Legible.ofText_text_iff (h : c.Legible) : ofText c.text = .ok c ↔ c.hasItems = true := by
  refine ⟨fun hRead => ?_, h.ofText_text⟩
  cases hItems : c.hasItems with
  | true => rfl
  | false =>
    obtain ⟨op, hRefused⟩ := h.ofText_text_of_emptied hItems
    rw [hRead] at hRefused
    cases hRefused

/-! ## Lists of commands -/

/-- What is read from several texts was read from each. -/
theorem legible_of_mapM : ∀ {texts : List String} {cs : List Command}, texts.mapM ofText = .ok cs →
    ∀ c ∈ cs, c.Legible := by
  intro texts
  induction texts with
  | nil =>
    intro cs h
    cases h
    exact fun c hc => absurd hc List.not_mem_nil
  | cons s texts ih =>
    intro cs h
    rw [List.mapM_cons] at h
    obtain ⟨c, hc, h⟩ := Outcome.bind_eq_ok.mp h
    obtain ⟨cs, hcs, h⟩ := Outcome.bind_eq_ok.mp h
    cases h
    exact List.forall_mem_cons.mpr ⟨legible_of_ofText hc, ih hcs⟩

theorem mapM_text {cs : List Command} (h : ∀ c ∈ cs, ofText c.text = .ok c) :
    (cs.map text).mapM ofText = .ok cs := by
  induction cs with
  | nil => rfl
  | cons c cs ih =>
    obtain ⟨hHead, hTail⟩ := List.forall_mem_cons.mp h
    rw [List.map_cons, List.mapM_cons, hHead, ih hTail]
    rfl

end Command

namespace Schedule

/-- Trying commands adds some of them to the history, and those lead to the same schedule. -/
theorem exists_replay_attempt (registry : Registry) : ∀ (cs : List Command) (s : Schedule),
    ∃ done, s.replay registry done = .ok (s.attempt registry cs)
      ∧ (s.attempt registry cs).history = s.history ++ done ∧ ∀ c ∈ done, c ∈ cs := by
  intro cs
  induction cs with
  | nil => exact fun s => ⟨[], rfl, (List.append_nil _).symm, by simp⟩
  | cons c cs ih =>
    intro s
    cases hRun : s.run registry c with
    | error r =>
      obtain ⟨done, hReplay, hHistory, hSub⟩ := ih s
      have hStep : s.attempt registry (c :: cs) = s.attempt registry cs := by
        rw [attempt, List.foldl_cons, hRun]
        rfl
      rw [hStep]
      exact ⟨done, hReplay, hHistory, fun d hd => List.mem_cons_of_mem c (hSub d hd)⟩
    | ok result =>
      obtain ⟨s', report⟩ := result
      obtain ⟨done, hReplay, hHistory, hSub⟩ := ih s'
      have hStep : s.attempt registry (c :: cs) = s'.attempt registry cs := by
        rw [attempt, List.foldl_cons, hRun]
        rfl
      obtain ⟨t, _, _, rfl⟩ := run_eq_ok hRun
      refine ⟨c :: done, ?_, ?_, ?_⟩
      · rw [replay, List.foldlM_cons, hRun, hStep]
        exact hReplay
      · rw [hStep, hHistory, List.append_assoc]
        rfl
      · exact List.forall_mem_cons.mpr
          ⟨List.mem_cons_self, fun d hd => List.mem_cons_of_mem c (hSub d hd)⟩

/-- **Printed histories**: commands that were read from texts are read from their own texts when and
    only when their lists have items, and then the history of a schedule under them leads to that
    schedule from its texts too. -/
theorem reread_history {texts : List String} {cs : List Command}
    (hRead : texts.mapM Command.ofText = .ok cs) (registry : Registry) (tree : Stmt)
    (config : ScheduleConfig) :
    let start : Schedule := { tree, config }
    let s := start.attempt registry cs
    (∀ c ∈ cs, Command.ofText c.text = .ok c ↔ c.hasItems = true)
      ∧ ((∀ c ∈ s.history, c.hasItems = true) →
        ∃ read, (s.history.map Command.text).mapM Command.ofText = .ok read
          ∧ start.replay registry read = .ok s) := by
  intro start s
  have hLegible := Command.legible_of_mapM hRead
  refine ⟨fun c hc => (hLegible c hc).ofText_text_iff, fun hItems => ?_⟩
  obtain ⟨done, hReplay, hHistory, hSub⟩ := exists_replay_attempt registry cs start
  have hDone : s.history = done := hHistory
  refine ⟨done, ?_, hReplay⟩
  rw [hDone]
  exact Command.mapM_text fun c hc =>
    (hLegible c (hSub c hc)).ofText_text (hItems c (hDone ▸ hc))

/-- Clears a matrix that is used nowhere else. -/
def clearedMatrix : Stmt :=
  .decl ⟨0, some "V"⟩ "y" ⟨[.int 8, .int 8], .int32, .cache, .cpu⟩
    (.loop ⟨1, some "L1"⟩ { iter := "i", lower := .int 0, upper := .int 8 }
      (.loop ⟨2, some "L2"⟩ { iter := "j", lower := .int 0, upper := .int 8 }
        (.store ⟨3, some "S0"⟩ "y" [.var "i", .var "j"] (.int 0))))

/-- Commands in spellings that are not their own texts. -/
def spellings : List String :=
  ["reorder L2,,L1", " split  L1 factor=+04 ", "split L2 nparts=n=m", "fission L1 S0",
    "var_reorder V 1,+0"]

/-- What the spellings are read as. -/
def spelled : List Command :=
  [.reorder ["L2", "L1"], .split "L1" (some (.int 4)) none, .split "L2" none (some (.var "n=m")),
    .fission "L1" "S0", .varReorder "V" [1, 0]]

/-- The program under them; the request that names a statement of the loop is rejected. -/
def clearedAsSpelled : Schedule := ({ tree := clearedMatrix } : Schedule).attempt ⟨[]⟩ spelled

theorem reread_spellings : spellings.mapM Command.ofText = .ok spelled
    ∧ clearedAsSpelled.history.map Command.text
      = ["reorder L2,L1", "split L1 factor=4", "split L2 nparts=n=m", "var_reorder V 1,0"]
    ∧ ∃ read, (clearedAsSpelled.history.map Command.text).mapM Command.ofText = .ok read
      ∧ ({ tree := clearedMatrix } : Schedule).replay ⟨[]⟩ read = .ok clearedAsSpelled := by
  have hRead : spellings.mapM Command.ofText = .ok spelled := by rfl
  have hItems : clearedAsSpelled.history.all Command.hasItems = true := by cbv
  exact ⟨hRead, by cbv,
    (reread_history hRead ⟨[]⟩ clearedMatrix {}).2 (List.all_eq_true.mp hItems)⟩

end Schedule

/-- **Emptied lists**: a text that leaves no item of its list is read as a command, and the text of
    that command is refused. -/
theorem Command.emptied_not_reread :
    Command.ofText "reorder ," = .ok (.reorder [])
      ∧ (Command.reorder []).text = "reorder "
      ∧ Command.ofText (Command.reorder []).text
        = .error ⟨.unreadableCommand "reorder" "reorder", .command⟩ := by
  exact ⟨by rfl, by rfl, by rfl⟩

end LoopNest
