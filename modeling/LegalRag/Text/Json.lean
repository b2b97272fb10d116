import Mathlib.Data.List.Basic

/-!
# JSON texts

JSON values and the compact text of each (`dumps`).  A dict is the list of its items in the order of their
keys, so that values that differ in the order of insertion are the same; a number is its text.

* `dumps_cancel`, `dumps_injective`: the text determines the value, also inside a longer text;
* `split_at_bar`: where a bar separates two texts, and the second is the text of a value, the place of the
bar is determined: a text has bars only inside its strings.
-/

namespace Json

/-- A character of a number. -/
def isNumberChar (c : Char) : Bool := c.isDigit || c = '-' || c = '+' || c = '.' || c = 'e' || c = 'E'

/-- The text of a number. -/
structure Number where
  text : List Char
  nonempty : text ≠ []
  chars : ∀ c ∈ text, isNumberChar c = true
  deriving DecidableEq

inductive Value where
  | null
  | bool (b : Bool)
  | num (n : Number)
  | str (s : String)
  | arr (xs : List Value)
  | obj (fields : List (String × Value))

/-- A digit of a `\u` escape. -/
def hexDigit (n : Nat) : Char := if n < 10 then Char.ofNat (48 + n) else Char.ofNat (87 + n)

/-- A character inside a string. -/
def escape (c : Char) : List Char :=
  if c = '"' then ['\\', '"']
  else if c = '\\' then ['\\', '\\']
  else if c = '\x08' then ['\\', 'b']
  else if c = '\t' then ['\\', 't']
  else if c = '\n' then ['\\', 'n']
  else if c = '\x0c' then ['\\', 'f']
  else if c = '\r' then ['\\', 'r']
  else if c.toNat < 32 then ['\\', 'u', '0', '0', hexDigit (c.toNat / 16), hexDigit (c.toNat % 16)]
  else [c]

/-- A string in quotes. -/
def quote (s : List Char) : List Char := '"' :: (s.flatMap escape ++ ['"'])

mutual

/-- The characters of the text of a value. -/
def chars : Value → List Char
  | .null => ['n', 'u', 'l', 'l']
  | .bool true => ['t', 'r', 'u', 'e']
  | .bool false => ['f', 'a', 'l', 's', 'e']
  | .num n => n.text
  | .str s => quote s.toList
  | .arr xs => '[' :: elems xs
  | .obj fields => '{' :: items fields

/-- The elements of an array, up to the bracket that closes it. -/
def elems : List Value → List Char
  | [] => [']']
  | x :: xs => chars x ++ moreElems xs

def moreElems : List Value → List Char
  | [] => [']']
  | x :: xs => ',' :: (chars x ++ moreElems xs)

/-- The items of a dict, up to the brace that closes it. -/
def items : List (String × Value) → List Char
  | [] => ['}']
  | (k, v) :: fields => quote k.toList ++ ':' :: (chars v ++ moreItems fields)

def moreItems : List (String × Value) → List Char
  | [] => ['}']
  | (k, v) :: fields => ',' :: (quote k.toList ++ ':' :: (chars v ++ moreItems fields))

end

/-- The text of a value. -/
def dumps (v : Value) : String := String.ofList (chars v)

/-! ### Strings -/

/-- The value of a digit of a `\u` escape. -/
def hexVal (c : Char) : Nat := if c.toNat < 58 then c.toNat - 48 else c.toNat - 87

private theorem hexVal_hexDigit : ∀ n, n < 16 → hexVal (hexDigit n) = n := by decide

/-- The first character of the inside of a string, and the rest. -/
def unescape : List Char → Option (Char × List Char)
  | '\\' :: 'u' :: _ :: _ :: x :: y :: r => some (Char.ofNat (16 * hexVal x + hexVal y), r)
  | '\\' :: 'b' :: r => some ('\x08', r)
  | '\\' :: 't' :: r => some ('\t', r)
  | '\\' :: 'n' :: r => some ('\n', r)
  | '\\' :: 'f' :: r => some ('\x0c', r)
  | '\\' :: 'r' :: r => some ('\r', r)
  | '\\' :: c :: r => some (c, r)
  | c :: r => some (c, r)
  | [] => none

/-- What is written for a character: itself, a backslash and a letter, or its code. -/
private theorem escape_cases (c : Char) :
    (escape c = [c] ∧ c ≠ '"' ∧ c ≠ '\\') ∨ (∃ x, escape c = ['\\', x]) ∨
    ∃ m n, m < 16 ∧ n < 16 ∧ escape c = ['\\', 'u', '0', '0', hexDigit m, hexDigit n] := by
  unfold escape
  by_cases hquote : c = '"'
  · exact Or.inr (Or.inl ⟨_, if_pos hquote⟩)
  by_cases hslash : c = '\\'
  · rw [if_neg hquote]
    exact Or.inr (Or.inl ⟨_, if_pos hslash⟩)
  rw [if_neg hquote, if_neg hslash]
  by_cases hb : c = '\x08'
  · exact Or.inr (Or.inl ⟨_, if_pos hb⟩)
  rw [if_neg hb]
  by_cases ht : c = '\t'
  · exact Or.inr (Or.inl ⟨_, if_pos ht⟩)
  rw [if_neg ht]
  by_cases hn : c = '\n'
  · exact Or.inr (Or.inl ⟨_, if_pos hn⟩)
  rw [if_neg hn]
  by_cases hf : c = '\x0c'
  · exact Or.inr (Or.inl ⟨_, if_pos hf⟩)
  rw [if_neg hf]
  by_cases hr : c = '\r'
  · exact Or.inr (Or.inl ⟨_, if_pos hr⟩)
  rw [if_neg hr]
  by_cases hcode : c.toNat < 32
  · exact Or.inr (Or.inr ⟨c.toNat / 16, c.toNat % 16, by omega, by omega, if_pos hcode⟩)
  · exact Or.inl ⟨if_neg hcode, hquote, hslash⟩

private theorem unescape_plain {c : Char} (h : c ≠ '\\') (r : List Char) :
    unescape (c :: r) = some (c, r) := by
  rw [unescape] <;> (intros; contradiction)

private theorem unescape_escape (c : Char) (r : List Char) : unescape (escape c ++ r) = some (c, r) := by
  by_cases hquote : c = '"'
  · rw [hquote]; rfl
  by_cases hslash : c = '\\'
  · rw [hslash]; rfl
  by_cases hb : c = '\x08'
  · rw [hb]; rfl
  by_cases ht : c = '\t'
  · rw [ht]; rfl
  by_cases hn : c = '\n'
  · rw [hn]; rfl
  by_cases hf : c = '\x0c'
  · rw [hf]; rfl
  by_cases hr : c = '\r'
  · rw [hr]; rfl
  rw [escape, if_neg hquote, if_neg hslash, if_neg hb, if_neg ht, if_neg hn, if_neg hf, if_neg hr]
  by_cases hcode : c.toNat < 32
  · -- two digits hold a code below 32
    rw [if_pos hcode]
    have hval : 16 * hexVal (hexDigit (c.toNat / 16)) + hexVal (hexDigit (c.toNat % 16)) = c.toNat := by
      rw [hexVal_hexDigit _ (by omega), hexVal_hexDigit _ (by omega)]
      omega
    show some (Char.ofNat (16 * hexVal (hexDigit (c.toNat / 16)) + hexVal (hexDigit (c.toNat % 16))), r) =
      some (c, r)
    rw [hval, Char.ofNat_toNat]
  · rw [if_neg hcode]
    exact unescape_plain hslash r

private theorem escape_cancel {c d : Char} {r t : List Char} (h : escape c ++ r = escape d ++ t) :
    c = d ∧ r = t := by
  have hsome := unescape_escape c r
  rw [h, unescape_escape] at hsome
  simp only [Option.some.injEq, Prod.mk.injEq] at hsome
  exact ⟨hsome.1.symm, hsome.2.symm⟩

/-- The inside of a string does not end the string. -/
private theorem escape_ne_quote {c : Char} {r t : List Char} : escape c ++ r ≠ '"' :: t := by
  intro h
  rcases escape_cases c with ⟨hc, hquote, -⟩ | ⟨x, hc⟩ | ⟨m, n, -, -, hc⟩ <;> rw [hc] at h
  · exact hquote (List.cons.inj h).1
  · exact absurd (List.cons.inj h).1 (by decide)
  · exact absurd (List.cons.inj h).1 (by decide)

private theorem flatMap_escape_cancel {s s' r t : List Char}
    (h : s.flatMap escape ++ '"' :: r = s'.flatMap escape ++ '"' :: t) : s = s' ∧ r = t := by
  induction s generalizing s' with
  | nil =>
    cases s' with
    | nil => exact ⟨rfl, (List.cons.inj h).2⟩
    | cons d s' =>
      rw [List.flatMap_cons, List.append_assoc] at h
      exact absurd h.symm escape_ne_quote
  | cons c s ih =>
    cases s' with
    | nil =>
      rw [List.flatMap_cons, List.append_assoc] at h
      exact absurd h escape_ne_quote
    | cons d s' =>
      rw [List.flatMap_cons, List.flatMap_cons, List.append_assoc, List.append_assoc] at h
      obtain ⟨hcd, hrest⟩ := escape_cancel h
      obtain ⟨hs, hr⟩ := ih hrest
      exact ⟨by rw [hcd, hs], hr⟩

/-- A string in quotes determines the string, and where it ends. -/
private theorem quote_cancel {s s' r t : List Char} (h : quote s ++ r = quote s' ++ t) : s = s' ∧ r = t := by
  simp only [quote, List.cons_append, List.append_assoc, List.cons.injEq, true_and] at h
  exact flatMap_escape_cancel h

/-! ### Values -/

/-- What may follow a value inside a text. -/
def Ends (r : List Char) : Prop := ∀ c ∈ r.head?, isNumberChar c = false

theorem ends_nil : Ends [] := nofun

private theorem ends_cons {c : Char} (h : isNumberChar c = false) (r : List Char) : Ends (c :: r) := by
  intro d hd
  obtain rfl := Option.some.inj hd
  exact h

private theorem moreElems_ends (xs : List Value) (r : List Char) : Ends (moreElems xs ++ r) := by
  cases xs with
  | nil => exact ends_cons (by decide) _
  | cons x xs => exact ends_cons (by decide) _

private theorem moreItems_ends (fields : List (String × Value)) (r : List Char) :
    Ends (moreItems fields ++ r) := by
  cases fields with
  | nil => exact ends_cons (by decide) _
  | cons f fields => exact ends_cons (by decide) _

/-- Where two texts of number characters end is determined by what may follow. -/
private theorem number_cancel {n m r t : List Char} (hn : ∀ c ∈ n, isNumberChar c = true)
    (hm : ∀ c ∈ m, isNumberChar c = true)
    (hr : Ends r) (ht : Ends t) (h : n ++ r = m ++ t) : n = m ∧ r = t := by
  have htake : ∀ {n r : List Char}, (∀ c ∈ n, isNumberChar c = true) → Ends r →
      (n ++ r).takeWhile isNumberChar = n := by
    intro n r hn hr
    rw [List.takeWhile_append_of_pos hn]
    cases r with
    | nil => simp
    | cons c r => simp [hr c rfl]
  have heq : n = m := by rw [← htake hn hr, h, htake hm ht]
  subst heq
  exact ⟨rfl, List.append_cancel_left h⟩

/-- What the first character of the text of a value tells. -/
inductive Kind where
  | null
  | bool (b : Bool)
  | num
  | str
  | arr
  | obj
  | other
  deriving DecidableEq

def Value.kind : Value → Kind
  | .null => .null
  | .bool b => .bool b
  | .num _ => .num
  | .str _ => .str
  | .arr _ => .arr
  | .obj _ => .obj

def kindOf (c : Char) : Kind :=
  if isNumberChar c then .num
  else if c = 'n' then .null
  else if c = 't' then .bool true
  else if c = 'f' then .bool false
  else if c = '"' then .str
  else if c = '[' then .arr
  else if c = '{' then .obj
  else .other

private theorem chars_head (v : Value) : ∃ c cs, chars v = c :: cs ∧ kindOf c = v.kind := by
  cases v with
  | null => exact ⟨_, _, rfl, by decide⟩
  | bool b => cases b <;> exact ⟨_, _, rfl, by decide⟩
  | num n =>
    obtain ⟨text, hne, hchars⟩ := n
    cases text with
    | nil => exact absurd rfl hne
    | cons c cs => exact ⟨c, cs, rfl, if_pos (hchars c (by simp))⟩
  | str s => exact ⟨_, _, rfl, (by decide : kindOf '"' = .str)⟩
  | arr xs => exact ⟨_, _, rfl, (by decide : kindOf '[' = .arr)⟩
  | obj fields => exact ⟨_, _, rfl, (by decide : kindOf '{' = .obj)⟩

private theorem kind_eq {v u : Value} {r t : List Char} (h : chars v ++ r = chars u ++ t) :
    v.kind = u.kind := by
  obtain ⟨c, cs, hc, hv⟩ := chars_head v
  obtain ⟨d, ds, hd, hu⟩ := chars_head u
  rw [hc, hd] at h
  rw [← hv, ← hu, (List.cons.inj h).1]

/-- No value begins with a bracket that closes. -/
private theorem chars_ne_cons {v : Value} {c : Char} {r t : List Char} (hc : kindOf c = .other) :
    chars v ++ r ≠ c :: t := by
  intro h
  obtain ⟨d, ds, hd, hv⟩ := chars_head v
  rw [hd] at h
  obtain rfl : d = c := (List.cons.inj h).1
  rw [hc] at hv
  cases v <;> cases hv

mutual

/-- The text of a value determines the value, and where it ends. -/
theorem chars_cancel (v u : Value) {r t : List Char} (hr : Ends r) (ht : Ends t)
    (h : chars v ++ r = chars u ++ t) : v = u ∧ r = t := by
  have hkind := kind_eq h
  match v, u with
  | .null, .null => exact ⟨rfl, List.append_cancel_left h⟩
  | .bool b, .bool b' =>
    obtain rfl : b = b' := Kind.bool.inj hkind
    exact ⟨rfl, List.append_cancel_left h⟩
  | .num n, .num m =>
    obtain ⟨htext, hrest⟩ := number_cancel n.chars m.chars hr ht h
    obtain ⟨n, hn, hn'⟩ := n
    obtain ⟨m, hm, hm'⟩ := m
    obtain rfl : n = m := htext
    exact ⟨rfl, hrest⟩
  | .str s, .str s' =>
    obtain ⟨hs, hrest⟩ := quote_cancel h
    exact ⟨by rw [String.toList_inj.mp hs], hrest⟩
  | .arr xs, .arr ys =>
    obtain ⟨hxs, hrest⟩ := elems_cancel xs ys (List.cons.inj h).2
    exact ⟨by rw [hxs], hrest⟩
  | .obj fs, .obj gs =>
    obtain ⟨hfs, hrest⟩ := items_cancel fs gs (List.cons.inj h).2
    exact ⟨by rw [hfs], hrest⟩

private theorem elems_cancel (xs ys : List Value) {r t : List Char} (h : elems xs ++ r = elems ys ++ t) :
    xs = ys ∧ r = t := by
  match xs, ys with
  | [], [] => exact ⟨rfl, (List.cons.inj h).2⟩
  | [], y :: ys =>
    simp only [elems, List.append_assoc, List.cons_append, List.nil_append] at h
    exact absurd h.symm (chars_ne_cons (by decide))
  | x :: xs, [] =>
    simp only [elems, List.append_assoc, List.cons_append, List.nil_append] at h
    exact absurd h (chars_ne_cons (by decide))
  | x :: xs, y :: ys =>
    simp only [elems, List.append_assoc] at h
    obtain ⟨hx, hrest⟩ := chars_cancel x y (moreElems_ends xs r) (moreElems_ends ys t) h
    obtain ⟨hxs, hr⟩ := moreElems_cancel xs ys hrest
    exact ⟨by rw [hx, hxs], hr⟩

private theorem moreElems_cancel (xs ys : List Value) {r t : List Char}
    (h : moreElems xs ++ r = moreElems ys ++ t) : xs = ys ∧ r = t := by
  match xs, ys with
  | [], [] => exact ⟨rfl, (List.cons.inj h).2⟩
  | [], y :: ys => exact absurd (List.cons.inj h).1 (by decide)
  | x :: xs, [] => exact absurd (List.cons.inj h).1 (by decide)
  | x :: xs, y :: ys =>
    simp only [moreElems, List.append_assoc, List.cons_append, List.cons.injEq, true_and] at h
    obtain ⟨hx, hrest⟩ := chars_cancel x y (moreElems_ends xs r) (moreElems_ends ys t) h
    obtain ⟨hxs, hr⟩ := moreElems_cancel xs ys hrest
    exact ⟨by rw [hx, hxs], hr⟩

private theorem items_cancel (fs gs : List (String × Value)) {r t : List Char}
    (h : items fs ++ r = items gs ++ t) : fs = gs ∧ r = t := by
  match fs, gs with
  | [], [] => exact ⟨rfl, (List.cons.inj h).2⟩
  | [], (k, v) :: gs => exact absurd (List.cons.inj h).1 (by decide)
  | (k, v) :: fs, [] => exact absurd (List.cons.inj h).1 (by decide)
  | (k, v) :: fs, (l, u) :: gs =>
    simp only [items, List.append_assoc, List.cons_append] at h
    obtain ⟨hk, hrest⟩ := quote_cancel h
    obtain ⟨hv, hrest⟩ := chars_cancel v u (moreItems_ends fs r) (moreItems_ends gs t) (List.cons.inj hrest).2
    obtain ⟨hfs, hr⟩ := moreItems_cancel fs gs hrest
    exact ⟨by rw [String.toList_inj.mp hk, hv, hfs], hr⟩

private theorem moreItems_cancel (fs gs : List (String × Value)) {r t : List Char}
    (h : moreItems fs ++ r = moreItems gs ++ t) : fs = gs ∧ r = t := by
  match fs, gs with
  | [], [] => exact ⟨rfl, (List.cons.inj h).2⟩
  | [], (k, v) :: gs => exact absurd (List.cons.inj h).1 (by decide)
  | (k, v) :: fs, [] => exact absurd (List.cons.inj h).1 (by decide)
  | (k, v) :: fs, (l, u) :: gs =>
    simp only [moreItems, List.append_assoc, List.cons_append, List.cons.injEq, true_and] at h
    obtain ⟨hk, hrest⟩ := quote_cancel h
    obtain ⟨hv, hrest⟩ := chars_cancel v u (moreItems_ends fs r) (moreItems_ends gs t) (List.cons.inj hrest).2
    obtain ⟨hfs, hr⟩ := moreItems_cancel fs gs hrest
    exact ⟨by rw [String.toList_inj.mp hk, hv, hfs], hr⟩

end

theorem dumps_injective {v u : Value} (h : dumps v = dumps u) : v = u := by
  have hchars : chars v = chars u := by
    rw [← String.toList_ofList (l := chars v), ← String.toList_ofList (l := chars u)]
    exact congrArg String.toList h
  exact (chars_cancel v u ends_nil ends_nil (by rw [hchars])).1

/-! ### Bars -/

/-- Where in a text a reader is: outside the strings, inside one, or after a backslash. -/
inductive Mode where
  | outside
  | inside
  | escaped
  deriving DecidableEq

/-- The place after one more character; there is no bar and no backslash outside the strings. -/
def read : Mode → Char → Option Mode
  | .outside, c => if c = '"' then some .inside else if c = '\\' ∨ c = '|' then none else some .outside
  | .inside, c => if c = '"' then some .outside else if c = '\\' then some .escaped else some .inside
  | .escaped, _ => some .inside

def reads : Mode → List Char → Option Mode
  | m, [] => some m
  | m, c :: s => (read m c).bind fun m' => reads m' s

/-- The text begins and ends outside the strings, and has no bars there. -/
def Closed (s : List Char) : Prop := reads .outside s = some .outside

private theorem reads_append (m : Mode) (s t : List Char) :
    reads m (s ++ t) = (reads m s).bind fun m' => reads m' t := by
  induction s generalizing m with
  | nil => rfl
  | cons c s ih =>
    show (read m c).bind (fun m' => reads m' (s ++ t)) = ((read m c).bind fun m' => reads m' s).bind
      fun m' => reads m' t
    cases read m c with
    | none => rfl
    | some m' => exact ih m'

private theorem Closed.append {s t : List Char} (hs : Closed s) (ht : Closed t) : Closed (s ++ t) := by
  unfold Closed at *
  rw [reads_append, hs]
  exact ht

private theorem closed_cons {c : Char} {s : List Char} (hc : read .outside c = some .outside)
    (hs : Closed s) : Closed (c :: s) := by
  unfold Closed reads
  rw [hc]
  exact hs

private theorem hexDigit_plain : ∀ n, n < 16 → hexDigit n ≠ '"' ∧ hexDigit n ≠ '\\' := by decide

private theorem read_inside {c : Char}
    (hquote : c ≠ '"') (hslash : c ≠ '\\') : read .inside c = some .inside := by
  show (if c = '"' then _ else if c = '\\' then _ else _) = _
  rw [if_neg hquote, if_neg hslash]

private theorem reads_escape (c : Char) : reads .inside (escape c) = some .inside := by
  rcases escape_cases c with ⟨hc, hquote, hslash⟩ | ⟨x, hc⟩ | ⟨m, n, hm, hn, hc⟩ <;> rw [hc]
  · unfold reads
    rw [read_inside hquote hslash]
    rfl
  · rfl
  · show (read .inside (hexDigit m)).bind (fun m' => reads m' [hexDigit n]) = some .inside
    rw [read_inside (hexDigit_plain m hm).1 (hexDigit_plain m hm).2]
    show (read .inside (hexDigit n)).bind (fun m' => reads m' []) = some .inside
    rw [read_inside (hexDigit_plain n hn).1 (hexDigit_plain n hn).2]
    rfl

private theorem closed_quote (s : List Char) : Closed (quote s) := by
  have hinside : reads .inside (s.flatMap escape) = some .inside := by
    induction s with
    | nil => rfl
    | cons c s ih => rw [List.flatMap_cons, reads_append, reads_escape]; exact ih
  show reads .inside (s.flatMap escape ++ ['"']) = some .outside
  rw [reads_append, hinside]
  rfl

private theorem closed_number {n : List Char} (hn : ∀ c ∈ n, isNumberChar c = true) : Closed n := by
  induction n with
  | nil => rfl
  | cons c n ih =>
    have hc : isNumberChar c = true := hn c (by simp)
    refine closed_cons ?_ (ih fun d hd => hn d (by simp [hd]))
    have hne : c ≠ '"' ∧ ¬ (c = '\\' ∨ c = '|') := by
      refine ⟨?_, ?_⟩
      · rintro rfl
        exact absurd hc (by decide)
      · rintro (rfl | rfl) <;> exact absurd hc (by decide)
    show (if c = '"' then _ else if c = '\\' ∨ c = '|' then _ else _) = _
    rw [if_neg hne.1, if_neg hne.2]

mutual

theorem closed_chars (v : Value) : Closed (chars v) := by
  match v with
  | .null => rfl
  | .bool true => rfl
  | .bool false => rfl
  | .num n => exact closed_number n.chars
  | .str s => exact closed_quote _
  | .arr xs => exact closed_cons rfl (closed_elems xs)
  | .obj fs => exact closed_cons rfl (closed_items fs)

private theorem closed_elems (xs : List Value) : Closed (elems xs) := by
  match xs with
  | [] => rfl
  | x :: xs => exact (closed_chars x).append (closed_moreElems xs)

private theorem closed_moreElems (xs : List Value) : Closed (moreElems xs) := by
  match xs with
  | [] => rfl
  | x :: xs => exact closed_cons rfl ((closed_chars x).append (closed_moreElems xs))

private theorem closed_items (fs : List (String × Value)) : Closed (items fs) := by
  match fs with
  | [] => rfl
  | (k, v) :: fs =>
    exact (closed_quote _).append (closed_cons rfl ((closed_chars v).append (closed_moreItems fs)))

private theorem closed_moreItems (fs : List (String × Value)) : Closed (moreItems fs) := by
  match fs with
  | [] => rfl
  | (k, v) :: fs =>
    exact closed_cons rfl ((closed_quote _).append
      (closed_cons rfl ((closed_chars v).append (closed_moreItems fs))))

end

/-- One reader is outside the strings where the other is inside. -/
def Opposite (m m' : Mode) : Prop := m = .outside ∧ m' = .inside ∨ m = .inside ∧ m' = .outside

private theorem Opposite.symm {m m' : Mode} (h : Opposite m m') : Opposite m' m :=
  (h.imp And.symm And.symm).symm

/-- One character, for a reader outside the strings and one inside. -/
private theorem opposite_of_read {n n' : Mode} {c : Char} (hm : Json.read .outside c = some n)
    (hm' : Json.read .inside c = some n') : Opposite n n' := by
  simp only [Json.read] at hm hm'
  by_cases hquote : c = '"'
  · rw [if_pos hquote] at hm hm'
    exact Or.inr ⟨(Option.some.inj hm).symm, (Option.some.inj hm').symm⟩
  · rw [if_neg hquote] at hm hm'
    by_cases hnone : c = '\\' ∨ c = '|'
    · rw [if_pos hnone] at hm
      cases hm
    · have hslash : c ≠ '\\' := fun h => hnone (Or.inl h)
      rw [if_neg hnone] at hm
      rw [if_neg hslash] at hm'
      exact Or.inl ⟨(Option.some.inj hm).symm, (Option.some.inj hm').symm⟩

private theorem Opposite.read {m m' n n' : Mode} {c : Char} (h : Opposite m m') (hm : read m c = some n)
    (hm' : Json.read m' c = some n') : Opposite n n' := by
  rcases h with ⟨rfl, rfl⟩ | ⟨rfl, rfl⟩
  · exact opposite_of_read hm hm'
  · exact (opposite_of_read hm' hm).symm

/-- Readers of one text that begin at opposite places end at opposite places. -/
private theorem Opposite.reads {m m' n n' : Mode} {s : List Char} (h : Opposite m m')
    (hm : reads m s = some n) (hm' : Json.reads m' s = some n') : Opposite n n' := by
  induction s generalizing m m' with
  | nil =>
    obtain rfl := Option.some.inj hm
    obtain rfl := Option.some.inj hm'
    exact h
  | cons c s ih =>
    obtain ⟨p, hp, hm⟩ := Option.bind_eq_some_iff.mp hm
    obtain ⟨p', hp', hm'⟩ := Option.bind_eq_some_iff.mp hm'
    exact ih (h.read hp hp') hm hm'

/-- What follows a bar in a closed text is not closed. -/
private theorem not_closed_after_bar {s t : List Char} (h : Closed (s ++ '|' :: t)) : ¬ Closed t := by
  intro ht
  unfold Closed at h
  rw [reads_append] at h
  obtain ⟨m, hm, h⟩ := Option.bind_eq_some_iff.mp h
  have hinside : reads .inside t = some .outside := by
    cases m with
    | outside => cases h
    | inside => exact h
    | escaped => exact h
  have hopp : Opposite .outside .outside := Opposite.reads (Or.inl ⟨rfl, rfl⟩) ht hinside
  rcases hopp with ⟨-, h⟩ | ⟨h, -⟩ <;> cases h

/-- The last bar before a closed text. -/
theorem split_at_bar {s s' t t' : List Char} (ht : Closed t) (ht' : Closed t')
    (h : s ++ '|' :: t = s' ++ '|' :: t') : s = s' ∧ t = t' := by
  have hnone : ∀ {s s' t t' : List Char} {x : List Char}, Closed t → Closed t' → s' = s ++ x →
      '|' :: t = x ++ '|' :: t' → s = s' ∧ t = t' := by
    intro s s' t t' x ht ht' hs hx
    cases x with
    | nil => exact ⟨by rw [hs, List.append_nil], (List.cons.inj hx).2⟩
    | cons c x =>
      have hrest := (List.cons.inj hx).2
      rw [hrest] at ht
      exact absurd ht' (not_closed_after_bar ht)
  rcases List.append_eq_append_iff.mp h with ⟨x, hs, hx⟩ | ⟨x, hs, hx⟩
  · exact hnone ht ht' hs hx
  · obtain ⟨hs', ht⟩ := hnone ht' ht hs hx
    exact ⟨hs'.symm, ht.symm⟩

end Json
