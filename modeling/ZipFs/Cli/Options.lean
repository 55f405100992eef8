import ZipFs.Mount.World

/-!
# Mount options

`src/cli.rs`: the table of settings, and `apply`, which puts one `-o` list into the
configuration. `src/main.rs` calls it once for each `-o` on the command line.

A list is cut at its commas and the pieces are applied from left to right, each on its
own. Only one thing is decided for the list as a whole, before any piece is applied: a
list that names both `remount` and `rw` is refused. That check is what keeps a list from
meaning the same as its pieces given in separate lists.

What is written to the log is left out. On an error the source leaves the pieces before
it applied, but its caller gives up on the configuration then, so here an error carries
none.
-/

namespace ZipFs.Cli

/-- Text is a list of characters; its bytes are their UTF-8 encoding. -/
abbrev Text := List Char

def Text.bytes (t : Text) : Bytes := t.flatMap String.utf8EncodeChar

/-- The whole of `Config` in `src/config.rs`: what the model of a running mount reads, and
the fields that only the kernel and the attributes of an inode depend on. -/
structure Settings extends Config where
  uid : Nat
  gid : Nat
  fileMode : Nat
  dirMode : Nat
  /-- Seconds. -/
  attrTtl : Nat
  allowOther : Bool
  allowRoot : Bool
  autoUnmount : Bool
  deriving DecidableEq, Repr

/-! ## Values -/

/-- The reasons of `std::num::ParseIntError` that an unsigned number can have. -/
inductive ParseIntError where
  | empty
  | invalidDigit
  | posOverflow
  deriving DecidableEq, Repr

def ParseIntError.display : ParseIntError → String
  | .empty => "cannot parse integer from empty string"
  | .invalidDigit => "invalid digit found in string"
  | .posOverflow => "number too large to fit in target type"

/-- `char::to_digit`, for a radix of at most ten. -/
def toDigit (radix : Nat) (c : Char) : Option Nat :=
  if '0'.toNat ≤ c.toNat ∧ c.toNat < '0'.toNat + radix then some (c.toNat - '0'.toNat) else none

/-- One turn of the loop of `from_str_radix`: a character that is no digit is found before
an overflow is. -/
def pushDigit (width radix n : Nat) (c : Char) : Except ParseIntError Nat :=
  match toDigit radix c with
  | none => .error .invalidDigit
  | some x =>
    if 2 ^ width ≤ n * radix then .error .posOverflow
    else if 2 ^ width ≤ n * radix + x then .error .posOverflow
    else .ok (n * radix + x)

/-- `from_str_radix` of an unsigned integer of this many bits. A sign in front may only be
a plus, and does not stand alone. -/
def fromStrRadix (width radix : Nat) (t : Text) : Except ParseIntError Nat :=
  match t with
  | [] => .error .empty
  | ['+'] => .error .invalidDigit
  | '+' :: digits => digits.foldlM (pushDigit width radix) 0
  | digits => digits.foldlM (pushDigit width radix) 0

/-- Reads a number, reporting only why it could not. -/
def number (width : Nat) (value : Text) : Except String Nat :=
  (fromStrRadix width 10 value).mapError fun e => "expected a number: " ++ e.display

/-- `trim_start_matches("0o")`. -/
def trimOctal : Text → Text
  | '0' :: 'o' :: rest => trimOctal rest
  | t => t

def mode (value : Text) : Except String Nat :=
  match fromStrRadix 16 8 (trimOctal value) with
  | .ok m => .ok (m &&& 0o7777)
  | .error e => .error ("expected an octal mode such as 644: " ++ e.display)

/-- `!mask` of a `u16`. -/
def notU16 (mask : Nat) : Nat := 0xFFFF - mask

/-! ## The settings -/

/-- What a setting does with what it was given. -/
inductive Apply where
  | flag (set : Settings → Settings)
  | value (set : Settings → Text → Except String Settings)

/-- The shape of every setting that takes a value: it is parsed, then stored. -/
def Apply.parsed (parse : Text → Except String Nat) (set : Settings → Nat → Settings) : Apply :=
  .value fun c v => (parse v).map (set c)

/-- One thing about a mount that the caller can decide. The texts for the help page are
left out. -/
structure Setting where
  name : String
  /-- `alias` in the source: another spelling that an option list may use. -/
  otherName : Option String
  apply : Apply

/-- Every setting, in the order the help lists them. -/
def SETTINGS : List Setting :=
  [⟨"threads", none, .parsed (number 64) fun c n => { c with threads := n }⟩,
   ⟨"no-verify", some "noverify", .flag fun c => { c with verify := false }⟩,
   ⟨"verify", none, .flag fun c => { c with verify := true }⟩,
   ⟨"source-buffer-size", none, .parsed (number 64) fun c n => { c with sourceBuffer := n }⟩,
   ⟨"decoders-per-file", none, .parsed (number 64) fun c n => { c with decodersPerFile := n }⟩,
   ⟨"max-retained-decoders", none,
     .parsed (number 64) fun c n => { c with maxRetainedDecoders := n }⟩,
   ⟨"uid", none, .parsed (number 32) fun c n => { c with uid := n }⟩,
   ⟨"gid", none, .parsed (number 32) fun c n => { c with gid := n }⟩,
   ⟨"file-mode", none, .parsed mode fun c m => { c with fileMode := m }⟩,
   ⟨"dir-mode", none, .parsed mode fun c m => { c with dirMode := m }⟩,
   -- The masks say which bits to take away.
   ⟨"umask", none, .parsed mode fun c m =>
     { c with fileMode := 0o666 &&& notU16 m, dirMode := 0o777 &&& notU16 m }⟩,
   ⟨"fmask", none, .parsed mode fun c m => { c with fileMode := 0o666 &&& notU16 m }⟩,
   ⟨"dmask", none, .parsed mode fun c m => { c with dirMode := 0o777 &&& notU16 m }⟩,
   ⟨"attr-ttl", none, .parsed (number 64) fun c n => { c with attrTtl := n }⟩,
   ⟨"allow-other", none, .flag fun c => { c with allowOther := true }⟩,
   ⟨"allow-root", none, .flag fun c => { c with allowRoot := true }⟩,
   ⟨"auto-unmount", none, .flag fun c => { c with autoUnmount := true }⟩]

/-- A byte that names count as one character. -/
def dash (b : UInt8) : Bool := b == '-'.toUInt8 || b == '_'.toUInt8

/-- Whether two names are the same, counting `-` and `_` as one character. -/
def sameName (a b : Text) : Bool :=
  a.bytes.length == b.bytes.length &&
    (a.bytes.zip b.bytes).all fun (x, y) => x == y || (dash x && dash y)

/-- Finds the setting of this name, in either spelling. -/
def find (name : Text) : Option Setting :=
  SETTINGS.find? fun s =>
    sameName s.name.toList name || s.otherName.any fun a => sameName a.toList name

/-! ## Lists of options -/

/-- `split_once('=')`, with the whole text as the key where there is none. -/
def splitOnce (opt : Text) : Text × Option Text :=
  match opt.dropWhile (· != '=') with
  | [] => (opt, none)
  | _ :: value => (opt.takeWhile (· != '='), some value)

/--
Applies one option. A key that is no setting belongs to the mount rather than to this
program: `rw` and the options the kernel or `mount(8)` act on by themselves change nothing,
and neither does an unknown one, which is reported to the log.
-/
def applyOne (c : Settings) (opt : Text) : Except String Settings :=
  let (key, value) := splitOnce opt
  let named := "mount option '" ++ String.ofList key
  match find key with
  | some setting =>
    match setting.apply, value with
    | .flag _, some _ => .error (named ++ "' takes no value")
    | .flag set, none => .ok (set c)
    | .value _, none => .error (named ++ "' needs a value")
    | .value set, some value =>
      (set c value).mapError fun reason => named ++ "=" ++ String.ofList value ++ "': " ++ reason
  | none =>
    if key = "remount".toList ∧ value.isSome then .error "mount option 'remount' takes no value"
    else .ok c

/-- The pieces of a list that are not empty. -/
def options (text : Text) : List Text := (text.splitOn ',').filter fun o => !o.isEmpty

/-- The one request that is refused as a whole. -/
def NamesBoth (opts : List Text) : Prop := "remount".toList ∈ opts ∧ "rw".toList ∈ opts

instance (opts : List Text) : Decidable (NamesBoth opts) := inferInstanceAs (Decidable (_ ∧ _))

def applyAll (c : Settings) (opts : List Text) : Except String Settings :=
  if NamesBoth opts then
    .error "the mount is read-only, so 'remount,rw' cannot be honoured"
  else opts.foldlM applyOne c

/-- Applies one `-o` list to the configuration. -/
def apply (c : Settings) (spec : ByteArray) : Except String Settings :=
  match String.fromUTF8? spec with
  | none => .error "option list is not valid text"
  | some text => applyAll c (options text.toList)

/-! ## What an option does not depend on -/

/-- Whether a setting accepts what it is given does not depend on the configuration. -/
def Apply.Uniform : Apply → Prop
  | .flag _ => True
  | .value set => ∀ v, (∀ c, ∃ c', set c v = .ok c') ∨ (∀ c, ∃ e, set c v = .error e)

theorem Apply.uniform_parsed (parse : Text → Except String Nat) (set : Settings → Nat → Settings) :
    (Apply.parsed parse set).Uniform := by
  intro v
  simp only
  cases parse v with
  | ok n => exact .inl fun c => ⟨set c n, rfl⟩
  | error e => exact .inr fun c => ⟨e, rfl⟩

theorem uniform_of_mem {s : Setting} (h : s ∈ SETTINGS) : s.apply.Uniform := by
  simp only [SETTINGS, List.mem_cons, List.not_mem_nil, or_false] at h
  rcases h with h | h | h | h | h | h | h | h | h | h | h | h | h | h | h | h | h
  all_goals
    subst h
    first
    | exact Apply.uniform_parsed _ _
    | trivial

/-- An option that is refused, whatever the configuration. -/
def Refused (opt : Text) : Prop := ∀ c, ∃ e, applyOne c opt = .error e

/-- An option is accepted by every configuration or by none. -/
theorem accepted_or_refused (opt : Text) : (∀ c, ∃ c', applyOne c opt = .ok c') ∨ Refused opt := by
  unfold Refused applyOne
  rcases splitOnce opt with ⟨key, value⟩
  dsimp only
  cases hfind : find key with
  | none =>
      dsimp only
      split
      · exact .inr fun c => ⟨_, rfl⟩
      · exact .inl fun c => ⟨c, rfl⟩
  | some setting =>
      have huni := uniform_of_mem (List.mem_of_find?_eq_some hfind)
      rcases setting with ⟨name, otherName, how⟩
      cases how with
      | flag set =>
          cases value with
          | none => exact .inl fun c => ⟨_, rfl⟩
          | some v => exact .inr fun c => ⟨_, rfl⟩
      | value set =>
          cases value with
          | none => exact .inr fun c => ⟨_, rfl⟩
          | some v =>
              rcases huni v with hok | herr
              · refine .inl fun c => ?_
                obtain ⟨c', hc'⟩ := hok c
                exact ⟨c', by simp [hc', Except.mapError]⟩
              · refine .inr fun c => ?_
                obtain ⟨e, he⟩ := herr c
                exact ⟨_, by simp only [he, Except.mapError]; rfl⟩

/-- The pieces of a list fail together exactly when one of them is refused. -/
theorem foldlM_fails_iff (opts : List Text) (c : Settings) :
    (opts.foldlM applyOne c).toOption = none ↔ ∃ opt ∈ opts, Refused opt := by
  induction opts generalizing c with
  | nil => simp [Except.toOption, pure, Except.pure]
  | cons opt opts ih =>
      rw [List.foldlM_cons]
      rcases accepted_or_refused opt with hok | href
      · obtain ⟨c', hc'⟩ := hok c
        have hnot : ¬ Refused opt := by
          intro href
          obtain ⟨e, he⟩ := href c
          rw [hc'] at he
          exact absurd he (by simp)
        rw [hc']
        simp only [List.mem_cons, exists_eq_or_imp, hnot, false_or]
        exact ih c'
      · obtain ⟨e, he⟩ := href c
        rw [he]
        exact ⟨fun _ => ⟨opt, List.mem_cons_self, href⟩, fun _ => rfl⟩

/-! ## Two lists and one -/

theorem options_append (l₁ l₂ : Text) :
    options (l₁ ++ ',' :: l₂) = options l₁ ++ options l₂ := by
  unfold options
  rw [List.splitOn_append_cons_self, List.filter_append]

theorem apply_text (c : Settings) (s : String) :
    apply c s.toUTF8 = applyAll c (options s.toList) := by
  have h : String.fromUTF8? s.toUTF8 = some s := by
    simp only [String.fromUTF8?]
    exact dif_pos s.isValidUTF8
  simp only [apply, h]

/-- The two words stand in the two lists, but in neither of them together. -/
def Divided (o₁ o₂ : List Text) : Prop :=
  NamesBoth (o₁ ++ o₂) ∧ ¬ NamesBoth o₁ ∧ ¬ NamesBoth o₂

theorem NamesBoth.append_left {o₁ : List Text} (h : NamesBoth o₁) (o₂ : List Text) :
    NamesBoth (o₁ ++ o₂) :=
  ⟨List.mem_append_left _ h.1, List.mem_append_left _ h.2⟩

theorem NamesBoth.append_right {o₂ : List Text} (h : NamesBoth o₂) (o₁ : List Text) :
    NamesBoth (o₁ ++ o₂) :=
  ⟨List.mem_append_right _ h.1, List.mem_append_right _ h.2⟩

/-- The law: one list means the same as its two halves given one after the other. -/
def Composes (c : Settings) (l₁ l₂ : String) : Prop :=
  (apply c (l₁ ++ "," ++ l₂).toUTF8).toOption =
    ((apply c l₁.toUTF8).bind fun c' => apply c' l₂.toUTF8).toOption

theorem toOption_bind_none {ε α β : Type} (x : Except ε α) (f : α → Except ε β)
    (h : ∀ a, (f a).toOption = none) : (x.bind f).toOption = none := by
  cases x with
  | error e => rfl
  | ok a => exact h a

/--
**When option lists compose.** The joined list and the two lists one after the other
accept the same options and give the same configuration, unless the words `remount` and
`rw` are divided between the two lists, and then still if some option is refused for a
reason of its own.
-/
theorem apply_composes_iff (c : Settings) (l₁ l₂ : String) :
    Composes c l₁ l₂ ↔
      ¬ Divided (options l₁.toList) (options l₂.toList) ∨
        ∃ opt ∈ options l₁.toList ++ options l₂.toList, Refused opt := by
  have hjoined : options (l₁ ++ "," ++ l₂).toList = options l₁.toList ++ options l₂.toList := by
    rw [← options_append]
    simp
  unfold Composes
  rw [apply_text, apply_text, hjoined]
  simp only [apply_text]
  generalize options l₁.toList = o₁
  generalize options l₂.toList = o₂
  by_cases h1 : NamesBoth o₁
  · -- The first list is refused, and so is the joined one.
    have hjoint := h1.append_left o₂
    have hdiv : ¬ Divided o₁ o₂ := fun h => h.2.1 h1
    simp only [applyAll, if_pos h1, if_pos hjoint, hdiv, not_false_eq_true, true_or, iff_true]
    rfl
  · by_cases h2 : NamesBoth o₂
    · have hjoint := h2.append_right o₁
      have hdiv : ¬ Divided o₁ o₂ := fun h => h.2.2 h2
      simp only [hdiv, not_false_eq_true, true_or, iff_true]
      rw [toOption_bind_none _ _ fun a => by simp only [applyAll, if_pos h2]; rfl]
      simp only [applyAll, if_pos hjoint]
      rfl
    · -- Neither list is refused as a whole, so together they are one fold.
      have hfold : ((applyAll c o₁).bind fun c' => applyAll c' o₂) =
          (o₁ ++ o₂).foldlM applyOne c := by
        simp only [applyAll, if_neg h1, if_neg h2, List.foldlM_append]
        rfl
      rw [hfold, ← foldlM_fails_iff _ c]
      by_cases hjoint : NamesBoth (o₁ ++ o₂)
      · have hdiv : Divided o₁ o₂ := ⟨hjoint, h1, h2⟩
        simp only [applyAll, if_pos hjoint, hdiv, not_true_eq_false, false_or]
        exact eq_comm
      · have hdiv : ¬ Divided o₁ o₂ := fun h => hjoint h.1
        simp only [applyAll, if_neg hjoint, hdiv, not_false_eq_true, true_or]

/-- `-o remount -o rw` is accepted where `-o remount,rw` is refused. -/
theorem apply_divided :
    ¬ ∀ (c : Settings) (l₁ l₂ : String),
      (apply c (l₁ ++ "," ++ l₂).toUTF8).toOption =
        ((apply c l₁.toUTF8).bind fun c' => apply c' l₂.toUTF8).toOption := by
  intro h
  have := h ⟨⟨true, 524288, 4, 64, 8⟩, 1000, 1000, 0o644, 0o755, 31536000, false, false, false⟩
    "remount" "rw"
  revert this
  decide +kernel

end ZipFs.Cli
