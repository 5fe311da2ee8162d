-- SUMMARY: The texts of JSON, and that each of them has one value.
import Mathlib.Computability.Language
import Polyglot.Proofs.Numeral

/-!
# The texts of JSON

`Json.Value.texts` gives the texts of a JSON value, production by production as RFC 8259
has them. They leave a writer free: white space, escapes and the form of numbers have no
meaning. A reader is not free, since no text has two values (`Json.Value.eq_of_mem_texts`).
The reason is that a value begins with a character that tells its kind, and ends where its
kind says. Only a number has to be told from what stands behind it.
-/

namespace Polyglot

namespace Json

/-! ## Strings -/

/-- The value of a digit in base 16. -/
def hexDigit? (c : Char) : Option Nat :=
  if '0' ≤ c ∧ c ≤ '9' then some (c.toNat - '0'.toNat)
  else if 'a' ≤ c ∧ c ≤ 'f' then some (c.toNat - 'a'.toNat + 10)
  else if 'A' ≤ c ∧ c ≤ 'F' then some (c.toNat - 'A'.toNat + 10)
  else none

/-- The value of digits in base 16. -/
def hex? (digits : List Char) : Option Nat :=
  digits.foldlM (fun n c => (hexDigit? c).map (16 * n + ·)) 0

/-- The character that a backslash and one other character stand for. -/
def shortEscape? : Char → Option Char
  | '"' => some '"'
  | '\\' => some '\\'
  | '/' => some '/'
  | 'b' => some '\x08'
  | 'f' => some '\x0C'
  | 'n' => some '\n'
  | 'r' => some '\r'
  | 't' => some '\t'
  | _ => none

/-- The forms of a character behind a backslash. -/
inductive Escape (c : Char) : List Char → Prop where
  | short {e : Char} (stands : shortEscape? e = some c) : Escape c [e]
  | unit {x₁ x₂ x₃ x₄ : Char} (value : hex? [x₁, x₂, x₃, x₄] = some c.toNat) :
      Escape c ['u', x₁, x₂, x₃, x₄]
  /-- A character that has no code unit of its own in UTF-16 has two. -/
  | pair {x₁ x₂ x₃ x₄ y₁ y₂ y₃ y₄ : Char} {high low : Nat}
      (first : hex? [x₁, x₂, x₃, x₄] = some high) (isHigh : 0xD800 ≤ high ∧ high < 0xDC00)
      (second : hex? [y₁, y₂, y₃, y₄] = some low) (isLow : 0xDC00 ≤ low ∧ low < 0xE000)
      (value : c.toNat = 0x10000 + (high - 0xD800) * 0x400 + (low - 0xDC00)) :
      Escape c ['u', x₁, x₂, x₃, x₄, '\\', 'u', y₁, y₂, y₃, y₄]

/-- The forms of a character in a string. -/
inductive Letter (c : Char) : List Char → Prop where
  | plain (visible : 0x20 ≤ c.toNat) (noQuote : c ≠ '"') (noBackslash : c ≠ '\\') : Letter c [c]
  | escaped {u : List Char} (escape : Escape c u) : Letter c ('\\' :: u)

/-- The forms of a character as a language. -/
def letter (c : Char) : Language Char := {u | Letter c u}

/-- A text of the language between two characters. -/
def between (first last : Char) (l : Language Char) : Language Char := {[first]} * l * {[last]}

theorem mem_between {x y : Char} {l : Language Char} {u : List Char} :
    u ∈ between x y l ↔ ∃ w ∈ l, u = x :: (w ++ [y]) := by
  simp only [between, Language.mem_mul]
  constructor
  · rintro ⟨_, ⟨_, rfl, w, hw, rfl⟩, _, rfl, rfl⟩
    exact ⟨w, hw, rfl⟩
  · rintro ⟨w, hw, rfl⟩
    exact ⟨_, ⟨_, rfl, w, hw, rfl⟩, _, rfl, rfl⟩

/-- The texts of a string. -/
def quoted (s : String) : Language Char := between '"' '"' (s.toList.map letter).prod

variable {c d : Char} {u v s : List Char}

theorem Letter.ne_quote (h : Letter c u) : ∃ x w, u = x :: w ∧ x ≠ '"' := by
  cases h with
  | plain _ noQuote _ => exact ⟨c, [], rfl, noQuote⟩
  | escaped => exact ⟨'\\', _, rfl, by decide⟩

/-- No character has the number of half a pair. -/
theorem hex?_ne_of_isHigh {digits : List Char} {high : Nat} (first : hex? digits = some high)
    (isHigh : 0xD800 ≤ high ∧ high < 0xDC00) : hex? digits ≠ some c.toNat := by
  intro value
  have hhigh : high = c.val.toNat := Option.some.inj (first.symm.trans value)
  have hvalid : c.val.toNat < 0xD800 ∨ 0xDFFF < c.val.toNat ∧ c.val.toNat < 0x110000 := c.valid
  omega

theorem Escape.unique (h : Escape c u) (k : Escape d v) (heq : u ++ r = v ++ s) :
    c = d ∧ r = s := by
  cases h with
  | @short e stands =>
    cases k with
    | short stands' =>
      obtain ⟨rfl, rfl⟩ := List.cons.inj heq
      exact ⟨Option.some.inj (stands.symm.trans stands'), rfl⟩
    | unit | pair =>
      obtain rfl : e = 'u' := (List.cons.inj heq).1
      cases stands
  | unit value =>
    cases k with
    | @short e stands =>
      obtain rfl : 'u' = e := (List.cons.inj heq).1
      cases stands
    | unit value' =>
      simp only [List.cons_append, List.nil_append, List.cons.injEq, true_and] at heq
      obtain ⟨rfl, rfl, rfl, rfl, rfl⟩ := heq
      exact ⟨Char.toNat_inj.1 (Option.some.inj (value.symm.trans value')), rfl⟩
    | pair first isHigh =>
      simp only [List.cons_append, List.nil_append, List.cons.injEq, true_and] at heq
      obtain ⟨rfl, rfl, rfl, rfl, -⟩ := heq
      exact absurd value (hex?_ne_of_isHigh first isHigh)
  | pair first isHigh second _ value =>
    cases k with
    | @short e stands =>
      obtain rfl : 'u' = e := (List.cons.inj heq).1
      cases stands
    | unit value' =>
      simp only [List.cons_append, List.nil_append, List.cons.injEq, true_and] at heq
      obtain ⟨rfl, rfl, rfl, rfl, -⟩ := heq
      exact absurd value' (hex?_ne_of_isHigh first isHigh)
    | pair first' _ second' _ value' =>
      simp only [List.cons_append, List.nil_append, List.cons.injEq, true_and] at heq
      obtain ⟨rfl, rfl, rfl, rfl, rfl, rfl, rfl, rfl, rfl⟩ := heq
      obtain rfl := Option.some.inj (first.symm.trans first')
      obtain rfl := Option.some.inj (second.symm.trans second')
      exact ⟨Char.toNat_inj.1 (value.trans value'.symm), rfl⟩

/-- Each form ends by itself and is that of one character. -/
theorem Letter.unique (h : Letter c u) (k : Letter d v) (heq : u ++ r = v ++ s) :
    c = d ∧ r = s := by
  obtain ⟨_, _, hc⟩ | hescape := h
  · obtain ⟨_, _, _⟩ | _ := k
    · exact List.cons.inj heq
    · exact absurd (List.cons.inj heq).1 hc
  · obtain ⟨_, _, hd⟩ | hescape' := k
    · exact absurd (List.cons.inj heq).1.symm hd
    · exact hescape.unique hescape' (List.cons.inj heq).2

theorem letters_unique {a b : List Char} (hu : u ∈ (a.map letter).prod)
    (hv : v ∈ (b.map letter).prod) (heq : u ++ '"' :: r = v ++ '"' :: s) : a = b ∧ r = s := by
  induction a generalizing b u v with
  | nil =>
    cases hu
    cases b with
    | nil =>
      cases hv
      exact ⟨rfl, (List.cons.inj heq).2⟩
    | cons d b =>
      obtain ⟨x, hx, y, -, rfl⟩ := Language.mem_mul.1 hv
      obtain ⟨z, w, rfl, hz⟩ := Letter.ne_quote hx
      exact absurd (List.cons.inj heq).1.symm hz
  | cons c a ih =>
    obtain ⟨x, hx, y, hy, rfl⟩ := Language.mem_mul.1 hu
    cases b with
    | nil =>
      cases hv
      obtain ⟨z, w, rfl, hz⟩ := Letter.ne_quote hx
      exact absurd (List.cons.inj heq).1 hz
    | cons d b =>
      obtain ⟨x', hx', y', hy', rfl⟩ := Language.mem_mul.1 hv
      simp only [List.append_assoc] at heq
      obtain ⟨rfl, hrest⟩ := Letter.unique hx hx' heq
      obtain ⟨rfl, hend⟩ := ih hy hy' hrest
      exact ⟨rfl, hend⟩

theorem quoted_unique {a b : String} (hu : u ∈ quoted a) (hv : v ∈ quoted b)
    (heq : u ++ r = v ++ s) : a = b ∧ r = s := by
  obtain ⟨x, hx, rfl⟩ := mem_between.1 hu
  obtain ⟨y, hy, rfl⟩ := mem_between.1 hv
  have hrest : x ++ '"' :: r = y ++ '"' :: s := by simpa using heq
  obtain ⟨hsame, hend⟩ := letters_unique hx hy hrest
  exact ⟨String.toList_inj.1 hsame, hend⟩

/-! ## Sequences -/

/-- The characters that white space is made of. -/
def isSpace (c : Char) : Bool := [' ', '\t', '\n', '\r'].contains c

/-- White space, or none. -/
def space : Language Char := {u | ∀ c ∈ u, isSpace c}

theorem nil_mem_space : [] ∈ space := fun _ h => nomatch h

/-- Texts of the languages in order, with a comma between each two and white space around
each. -/
def separated : List (Language Char) → Language Char
  | [] => space
  | [l] => space * l * space
  | l :: m :: ls => space * l * space * {[',']} * separated (m :: ls)

/-- The text behind a value does not go on as a number does. -/
def Ends (r : List Char) : Prop := ∀ c ∈ r.head?, isNumberPart c = false

/-- From its texts `a` can be told among all that the languages are for, and so can where
they end. -/
def Told {α : Type} (l : α → Language Char) (a : α) : Prop :=
  ∀ ⦃b u v r s⦄, u ∈ l a → v ∈ l b → u ++ r = v ++ s → Ends r → Ends s → a = b ∧ r = s

/-- No text begins with white space or with what stands between and behind the texts. -/
def Begins {α : Type} (l : α → Language Char) : Prop :=
  ∀ ⦃a u⦄, u ∈ l a → ∃ c w, u = c :: w ∧ isSpace c = false ∧ c ∉ [',', ']', '\x7d']

theorem ends_space_append (hs : s ∈ space) (hr : Ends r) : Ends (s ++ r) := by
  cases s with
  | nil => exact hr
  | cons c s =>
    rintro _ ⟨⟩
    have hc := hs c List.mem_cons_self
    simp only [isSpace, List.contains_eq_mem, List.mem_cons, List.not_mem_nil, or_false,
      decide_eq_true_eq] at hc
    rcases hc with rfl | rfl | rfl | rfl <;> decide

theorem dropWhile_space (hs : s ∈ space) (hr : ∀ c ∈ r.head?, isSpace c = false) :
    (s ++ r).dropWhile isSpace = r := by
  rw [List.dropWhile_append_of_pos hs]
  cases r with
  | nil => rfl
  | cons c r => simp [hr c rfl]

/-- White space in front of two equal texts is skipped in both. -/
theorem eq_of_space_append {s' r' : List Char} (hs : s ∈ space) (hs' : s' ∈ space)
    (hr : ∀ c ∈ r.head?, isSpace c = false) (hr' : ∀ c ∈ r'.head?, isSpace c = false)
    (heq : s ++ r = s' ++ r') : r = r' := by
  rw [← dropWhile_space hs hr, heq, dropWhile_space hs' hr']

section Separated

variable {α : Type} {l : α → Language Char} {a : α} {as bs : List α} {close : Char}

theorem Begins.head? (h : Begins l) (hu : u ∈ l a) : ∀ c ∈ (u ++ r).head?, isSpace c = false := by
  obtain ⟨c, w, rfl, hc, -⟩ := h hu
  simpa using hc

/-- What is behind the first of some texts. -/
inductive Behind (l : α → Language Char) : List α → List Char → Prop where
  | none : Behind l [] []
  | more {a : α} {as : List α} {w : List Char} (rest : w ∈ separated ((a :: as).map l)) :
      Behind l (a :: as) (',' :: w)

theorem mem_separated_cons : u ∈ separated ((a :: as).map l) ↔
    ∃ s ∈ space, ∃ x ∈ l a, ∃ s' ∈ space, ∃ w, Behind l as w ∧ u = s ++ (x ++ (s' ++ w)) := by
  cases as with
  | nil =>
    simp only [List.map_cons, List.map_nil, separated, Language.mem_mul]
    constructor
    · rintro ⟨_, ⟨s, hs, x, hx, rfl⟩, s', hs', rfl⟩
      exact ⟨s, hs, x, hx, s', hs', [], .none, by simp⟩
    · rintro ⟨s, hs, x, hx, s', hs', _, ⟨⟩, rfl⟩
      exact ⟨_, ⟨s, hs, x, hx, rfl⟩, s', hs', by simp⟩
  | cons b as =>
    simp only [List.map_cons, separated, Language.mem_mul]
    constructor
    · rintro ⟨_, ⟨_, ⟨_, ⟨s, hs, x, hx, rfl⟩, s', hs', rfl⟩, _, rfl, rfl⟩, w, hw, rfl⟩
      exact ⟨s, hs, x, hx, s', hs', _, .more hw, by simp⟩
    · rintro ⟨s, hs, x, hx, s', hs', _, hw | hw, rfl⟩
      exact ⟨_, ⟨_, ⟨_, ⟨s, hs, x, hx, rfl⟩, s', hs', rfl⟩, _, rfl, rfl⟩, _, hw, by simp⟩

theorem spec_close (h : close ∈ [']', '\x7d']) :
    isSpace close = false ∧ close ≠ ',' ∧ isNumberPart close = false := by
  simp only [List.mem_cons, List.not_mem_nil, or_false] at h
  rcases h with rfl | rfl <;> decide

/-- A comma or the closing bracket is behind each text, after white space. -/
theorem Behind.head? {w : List Char} (h : Behind l as w) (hclose : close ∈ [']', '\x7d']) :
    ∀ c ∈ (w ++ close :: r).head?, isSpace c = false ∧ isNumberPart c = false := by
  obtain ⟨hspace, -, hnumber⟩ := spec_close hclose
  rintro c hc
  cases h with
  | none =>
    obtain rfl : close = c := Option.some.inj hc
    exact ⟨hspace, hnumber⟩
  | more =>
    obtain rfl : ',' = c := Option.some.inj hc
    decide

variable (hbegins : Begins l) (hclose : close ∈ [']', '\x7d'])
include hbegins hclose

theorem ne_of_mem_separated_cons (hu : u ∈ space) (hv : v ∈ separated ((a :: as).map l)) :
    u ++ close :: r ≠ v ++ close :: s := by
  obtain ⟨b, hb, x, hx, b', -, w, -, rfl⟩ := mem_separated_cons.1 hv
  intro heq
  simp only [List.append_assoc] at heq
  obtain ⟨hspace, -⟩ := spec_close hclose
  have hcut := eq_of_space_append hu hb (by simpa using hspace) (hbegins.head? hx) heq
  obtain ⟨c, y, rfl, -, hne⟩ := hbegins hx
  obtain rfl : close = c := (List.cons.inj hcut).1
  exact hne (List.mem_cons_of_mem _ hclose)

/-- The closing bracket behind separated texts tells where the last of them ends. -/
theorem separated_unique (htold : ∀ a ∈ as, Told l a) (hu : u ∈ separated (as.map l))
    (hv : v ∈ separated (bs.map l)) (heq : u ++ close :: r = v ++ close :: s) :
    as = bs ∧ r = s := by
  obtain ⟨hspace, hcomma, -⟩ := spec_close hclose
  induction as generalizing bs u v with
  | nil =>
    cases bs with
    | nil =>
      have hcut := eq_of_space_append hu hv (by simpa using hspace) (by simpa using hspace) heq
      exact ⟨rfl, (List.cons.inj hcut).2⟩
    | cons b bs => exact absurd heq (ne_of_mem_separated_cons hbegins hclose hu hv)
  | cons a as ih =>
    cases bs with
    | nil => exact absurd heq.symm (ne_of_mem_separated_cons hbegins hclose hv hu)
    | cons b bs =>
      obtain ⟨t₁, ht₁, x, hx, t₁', ht₁', w, hw, rfl⟩ := mem_separated_cons.1 hu
      obtain ⟨t₂, ht₂, y, hy, t₂', ht₂', z, hz, rfl⟩ := mem_separated_cons.1 hv
      simp only [List.append_assoc] at heq
      have hitem := eq_of_space_append ht₁ ht₂ (hbegins.head? hx) (hbegins.head? hy) heq
      obtain ⟨rfl, hbehind⟩ := htold a List.mem_cons_self hx hy hitem
        (ends_space_append ht₁' fun c hc => (hw.head? hclose c hc).2)
        (ends_space_append ht₂' fun c hc => (hz.head? hclose c hc).2)
      have hrest := eq_of_space_append ht₁' ht₂' (fun c hc => (hw.head? hclose c hc).1)
        (fun c hc => (hz.head? hclose c hc).1) hbehind
      cases hw with
      | none =>
        cases hz with
        | none => exact ⟨rfl, (List.cons.inj hrest).2⟩
        | more => exact absurd (List.cons.inj hrest).1 hcomma
      | more hmore =>
        cases hz with
        | none => exact absurd (List.cons.inj hrest).1.symm hcomma
        | more hmore' =>
          obtain ⟨hsame, hend⟩ := ih (fun a ha => htold a (List.mem_cons_of_mem _ ha)) hmore
            hmore' (List.cons.inj hrest).2
          exact ⟨by rw [hsame], hend⟩

end Separated

/-- The texts of a member of an object: a key, a colon and a text of the language. -/
def pair (key : String) (l : Language Char) : Language Char :=
  quoted key * space * {[':']} * space * l

theorem mem_pair {key : String} {l : Language Char} : u ∈ pair key l ↔
    ∃ k ∈ quoted key, ∃ s ∈ space, ∃ s' ∈ space, ∃ x ∈ l, u = k ++ (s ++ ':' :: (s' ++ x)) := by
  simp only [pair, Language.mem_mul]
  constructor
  · rintro ⟨_, ⟨_, ⟨_, ⟨k, hk, s, hs, rfl⟩, _, rfl, rfl⟩, s', hs', rfl⟩, x, hx, rfl⟩
    exact ⟨k, hk, s, hs, s', hs', x, hx, by simp⟩
  · rintro ⟨k, hk, s, hs, s', hs', x, hx, rfl⟩
    exact ⟨_, ⟨_, ⟨_, ⟨k, hk, s, hs, rfl⟩, _, rfl, rfl⟩, s', hs', rfl⟩, x, hx, by simp⟩

/-! ## Values -/

/-- A JSON value. A number is what it comes to, and an object has its members in order. -/
inductive Value where
  | null
  | bool (b : Bool)
  | number (q : Rat)
  | string (s : String)
  | array (items : List Value)
  | object (members : List (String × Value))

namespace Value

/-- The texts of a value that begin and end with the value. -/
def bare : Value → Language Char
  | null => {"null".toList}
  | bool b => {(if b then "true" else "false").toList}
  | number q => {u | number? u = some q}
  | string s => quoted s
  | array items => between '[' ']' (separated (items.map fun v => v.bare))
  | object members =>
    between '\x7b' '\x7d' (separated (members.map fun m => pair m.1 m.2.bare))
decreasing_by
  · decreasing_tactic
  · next hm =>
    have hsize := List.sizeOf_lt_of_mem hm
    have hpair : sizeOf m = 1 + sizeOf m.1 + sizeOf m.2 := rfl
    simp only [object.sizeOf_spec]
    omega

/-- The texts of a value. -/
def texts (v : Value) : Language Char := space * v.bare * space

/-- What holds of a value if it holds of all values in it, holds of every value. -/
@[induction_eliminator]
theorem ind {motive : Value → Prop} (null : motive null) (bool : ∀ b, motive (bool b))
    (number : ∀ q, motive (number q)) (string : ∀ s, motive (string s))
    (array : ∀ items, (∀ v ∈ items, motive v) → motive (array items))
    (object : ∀ members, (∀ m ∈ members, motive m.2) → motive (object members)) (v : Value) :
    motive v := by
  induction v using Value.bare.induct with
  | case1 => exact null
  | case2 b => exact bool b
  | case3 q => exact number q
  | case4 s => exact string s
  | case5 items ih => exact array items ih
  | case6 members ih => exact object members ih

/-- The characters that texts of the value may begin with. -/
def Leads : Value → Char → Prop
  | null, c => c = 'n'
  | bool b, c => c = if b then 't' else 'f'
  | number _, c => c = '-' ∨ c.isDigit
  | string _, c => c = '"'
  | array _, c => c = '['
  | object _, c => c = '\x7b'

variable {a b : Value}

theorem leads_of_mem_bare (h : u ∈ a.bare) : ∃ c w, u = c :: w ∧ a.Leads c := by
  unfold bare at h
  split at h
  · cases h
    exact ⟨_, _, rfl, rfl⟩
  · next b =>
    cases h
    cases b <;> exact ⟨_, _, rfl, rfl⟩
  · exact (number?_spec h).2
  · obtain ⟨w, -, rfl⟩ := mem_between.1 h
    exact ⟨_, _, rfl, rfl⟩
  · obtain ⟨w, -, rfl⟩ := mem_between.1 h
    exact ⟨_, _, rfl, rfl⟩
  · obtain ⟨w, -, rfl⟩ := mem_between.1 h
    exact ⟨_, _, rfl, rfl⟩

/-- A character that leads a value is no space and none of what stands behind values. -/
theorem Leads.begins {x : Char} (h : a.Leads x) :
    isSpace x = false ∧ x ∉ [',', ']', '\x7d'] := by
  cases a with
  | number q =>
    rcases h with rfl | hdigit
    · decide
    · have hnone : ∀ y ∈ [' ', '\t', '\n', '\r', ',', ']', '\x7d'], (!y.isDigit) = true :=
        List.all_eq_true.1 (by decide)
      refine ⟨Bool.eq_false_iff.2 fun h => ?_, fun h => ?_⟩
      · simpa [hdigit] using hnone x (List.mem_append_left _ (List.contains_iff_mem.1 h))
      · simpa [hdigit] using hnone x (List.mem_append_right [' ', '\t', '\n', '\r'] h)
  | bool b => cases b <;> cases h <;> decide
  | null | string | array | object => cases h; decide

theorem begins_bare : Begins bare := by
  intro a u h
  obtain ⟨c, w, rfl, hc⟩ := leads_of_mem_bare h
  exact ⟨c, w, rfl, hc.begins⟩

/-- Two values of one kind. Truth values are of one kind if they are equal. -/
def SameKind : Value → Value → Prop
  | null, null | number _, number _ | string _, string _ | array _, array _
  | object _, object _ => True
  | bool b, bool b' => b = b'
  | _, _ => False

/-- What a value begins with tells its kind. -/
theorem Leads.sameKind {x : Char} (h : a.Leads x) (k : b.Leads x) : a.SameKind b := by
  have hdigit : ∀ y ∈ ['n', 't', 'f', '"', '[', '\x7b'], (y != '-' && !y.isDigit) = true :=
    List.all_eq_true.1 (by decide)
  cases a <;> cases b <;> simp only [Leads, SameKind] at * <;> grind

theorem sameKind_of_append (hu : u ∈ a.bare) (hv : v ∈ b.bare) (heq : u ++ r = v ++ s) :
    a.SameKind b := by
  obtain ⟨c, w, rfl, hc⟩ := leads_of_mem_bare hu
  obtain ⟨d, z, rfl, hd⟩ := leads_of_mem_bare hv
  obtain rfl : c = d := (List.cons.inj heq).1
  exact hc.sameKind hd

theorem told_number (q : Rat) : Told bare (number q) := by
  intro b u v r s hu hv heq hr hs
  match b, sameKind_of_append hu hv heq with
  | number q', _ =>
    have hcut : ∀ {u r : List Char}, (∀ c ∈ u, isNumberPart c) → Ends r →
        (u ++ r).takeWhile isNumberPart = u := by
      intro u r hu hr
      rw [List.takeWhile_append_of_pos hu]
      cases r with
      | nil => simp
      | cons c r => simp [hr c rfl]
    rw [bare] at hu hv
    have hsame := hcut (number?_spec hu).1 hr
    rw [heq, hcut (number?_spec hv).1 hs] at hsame
    rw [hsame] at hv heq
    exact ⟨by rw [Option.some.inj (Eq.trans (Eq.symm hu) hv)], List.append_cancel_left heq⟩

theorem told_pair {m : String × Value} (h : Told bare m.2) :
    Told (fun m : String × Value => pair m.1 m.2.bare) m := by
  intro n u v r s hu hv heq hr hs
  obtain ⟨k, hk, s₁, hs₁, s₂, hs₂, x, hx, rfl⟩ := mem_pair.1 hu
  obtain ⟨k', hk', t₁, ht₁, t₂, ht₂, y, hy, rfl⟩ := mem_pair.1 hv
  simp only [List.append_assoc, List.cons_append] at heq
  obtain ⟨hkey, hbehind⟩ := quoted_unique hk hk' heq
  have hspace : isSpace ':' = false := rfl
  have hcolon := eq_of_space_append hs₁ ht₁ (by simp [hspace]) (by simp [hspace]) hbehind
  have hvalue := eq_of_space_append hs₂ ht₂ (begins_bare.head? hx) (begins_bare.head? hy)
    (List.cons.inj hcolon).2
  obtain ⟨hsame, hend⟩ := h hx hy hvalue hr hs
  exact ⟨Prod.ext hkey hsame, hend⟩

theorem begins_pair : Begins fun m : String × Value => pair m.1 m.2.bare := by
  intro m u h
  obtain ⟨k, hk, s, -, s', -, x, -, rfl⟩ := mem_pair.1 h
  obtain ⟨w, -, rfl⟩ := mem_between.1 hk
  exact ⟨'"', _, rfl, by decide, by decide⟩

/-- A value is told by each of its texts, and so is where the text ends. -/
theorem told (a : Value) : Told bare a := by
  induction a with
  | number q => exact told_number q
  | null =>
    intro b u v r s hu hv heq _ _
    match b, sameKind_of_append hu hv heq with
    | null, _ =>
      rw [bare] at hu hv
      cases hu
      cases hv
      exact ⟨rfl, List.append_cancel_left heq⟩
  | bool x =>
    intro b u v r s hu hv heq _ _
    match b, sameKind_of_append hu hv heq with
    | bool y, hsame =>
      obtain rfl : x = y := hsame
      rw [bare] at hu hv
      cases hu
      cases hv
      exact ⟨rfl, List.append_cancel_left heq⟩
  | string x =>
    intro b u v r s hu hv heq _ _
    match b, sameKind_of_append hu hv heq with
    | string y, _ =>
      rw [bare] at hu hv
      obtain ⟨rfl, hend⟩ := quoted_unique hu hv heq
      exact ⟨rfl, hend⟩
  | array items ih =>
    intro b u v r s hu hv heq _ _
    match b, sameKind_of_append hu hv heq with
    | array items', _ =>
      rw [bare] at hu hv
      obtain ⟨w, hw, rfl⟩ := mem_between.1 hu
      obtain ⟨z, hz, rfl⟩ := mem_between.1 hv
      obtain ⟨rfl, hend⟩ := separated_unique begins_bare (show ']' ∈ [']', '\x7d'] by decide) ih
        hw hz (by simpa using heq)
      exact ⟨rfl, hend⟩
  | object members ih =>
    intro b u v r s hu hv heq _ _
    match b, sameKind_of_append hu hv heq with
    | object members', _ =>
      rw [bare] at hu hv
      obtain ⟨w, hw, rfl⟩ := mem_between.1 hu
      obtain ⟨z, hz, rfl⟩ := mem_between.1 hv
      obtain ⟨rfl, hend⟩ := separated_unique begins_pair (show '\x7d' ∈ [']', '\x7d'] by decide)
        (fun m hm => told_pair (ih m hm)) hw hz (by simpa using heq)
      exact ⟨rfl, hend⟩

theorem mem_texts : u ∈ a.texts ↔
    ∃ s ∈ space, ∃ x ∈ a.bare, ∃ s' ∈ space, u = s ++ (x ++ s') := by
  simp only [texts, Language.mem_mul]
  constructor
  · rintro ⟨_, ⟨s, hs, x, hx, rfl⟩, s', hs', rfl⟩
    exact ⟨s, hs, x, hx, s', hs', by simp⟩
  · rintro ⟨s, hs, x, hx, s', hs', rfl⟩
    exact ⟨_, ⟨s, hs, x, hx, rfl⟩, s', hs', by simp⟩

/-- No text has two values. -/
theorem eq_of_mem_texts (hu : u ∈ a.texts) (hv : u ∈ b.texts) : a = b := by
  obtain ⟨s₁, hs₁, x, hx, s₂, hs₂, rfl⟩ := mem_texts.1 hu
  obtain ⟨t₁, ht₁, y, hy, t₂, ht₂, heq⟩ := mem_texts.1 hv
  have hvalue := eq_of_space_append hs₁ ht₁ (begins_bare.head? hx) (begins_bare.head? hy) heq
  have hends : ∀ {s : List Char}, s ∈ space → Ends s := by
    intro s hs
    have hnone : Ends [] := by simp [Ends]
    simpa using ends_space_append hs hnone
  exact (told a hx hy hvalue (hends hs₂) (hends ht₂)).1

end Value

end Json

end Polyglot
