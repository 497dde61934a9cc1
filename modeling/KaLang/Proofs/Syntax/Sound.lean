import KaLang.Proofs.Syntax.Grammar

/-!
The parser reads by the grammar: whatever it gives back is derived by the rules of `Reads`. There is
one lemma for each reader, under the assumption that shorter lists of tokens are read by the grammar
(`SoundBelow`), and one induction on the length at the end.
-/

namespace KaLang

namespace Reading

variable {stop : Span} {tokens rest : List Token} {token : Token} {test : Token → Bool}
  {hrest : rest.length < tokens.length}

theorem eq_cons_of_accept (haccept : accept test tokens = some ⟨token, rest, hrest⟩) :
    tokens = token :: rest ∧ test token = true := by
  cases tokens with
  | nil => cases haccept
  | cons first more =>
    simp only [accept] at haccept
    split at haccept
    · next htest =>
      cases haccept
      exact ⟨rfl, htest⟩
    · cases haccept

theorem eq_cons_of_keyword {word : Keyword}
    (hread : keyword stop word tokens = .ok ⟨token, rest, hrest⟩) :
    tokens = token :: rest ∧ token.isKeyword word = true := by
  unfold keyword at hread
  split at hread
  · next haccept =>
    cases hread
    exact eq_cons_of_accept haccept
  · cases hread

theorem eq_cons_of_delimiter {text : String}
    (hread : delimiter stop text tokens = .ok ⟨token, rest, hrest⟩) :
    tokens = token :: rest ∧ token.isDelimiter text = true := by
  unfold delimiter at hread
  split at hread
  · next haccept =>
    cases hread
    exact eq_cons_of_accept haccept
  · cases hread

theorem eq_cons_of_identifier {name : Identifier}
    (hread : identifier stop tokens = .ok ⟨name, rest, hrest⟩) :
    ∃ token : Token, tokens = token :: rest ∧ token.kind = .identifier ∧
      name = ⟨token.text, token.span⟩ := by
  obtain ⟨⟨token, rest, hrest⟩, htoken, hread⟩ := Except.bind_eq_ok_iff.mp hread
  unfold ofKind at htoken
  split at htoken
  · next haccept =>
    cases htoken
    cases hread
    obtain ⟨htokens, hkind⟩ := eq_cons_of_accept haccept
    exact ⟨token, htokens, by simpa using hkind, rfl⟩
  · cases htoken

/-- A list up to a closing delimiter is derived item by item, as each item is read. -/
theorem derives_of_itemsUntil {α : Type} {close : String} {bound : Nat}
    {item : (tokens : List Token) → tokens.length ≤ bound → Except CompileError (Reading α tokens)}
    (derives : Bool → List α → Token → List Token → List Token → Prop)
    (hlast : ∀ isFirst token tail, token.isDelimiter close = true →
      derives isFirst [] token (token :: tail) tail)
    (hfirst : ∀ tokens (hbound : tokens.length ≤ bound) first middle hmiddle more last rest,
      item tokens hbound = .ok ⟨first, middle, hmiddle⟩ → derives false more last middle rest →
      derives true (first :: more) last tokens rest)
    (hnext : ∀ comma tail (hbound : tail.length ≤ bound) first middle hmiddle more last rest,
      comma.isDelimiter "," = true → item tail hbound = .ok ⟨first, middle, hmiddle⟩ →
      derives false more last middle rest → derives false (first :: more) last (comma :: tail) rest)
    (isFirst : Bool) (tokens : List Token) (hbound : tokens.length ≤ bound) {items : List α}
    {last : Token} {rest : List Token} {hrest : rest.length < tokens.length}
    (hread : itemsUntil stop close bound item isFirst tokens hbound =
      .ok ⟨(items, last), rest, hrest⟩) :
    derives isFirst items last tokens rest := by
  rw [itemsUntil] at hread
  split at hread
  · next haccept =>
    cases hread
    obtain ⟨rfl, hclose⟩ := eq_cons_of_accept haccept
    exact hlast isFirst _ _ hclose
  · obtain ⟨⟨_, beforeItem, hbefore⟩, hcomma, hread⟩ := Except.bind_eq_ok_iff.mp hread
    obtain ⟨⟨first, afterItem, hitem⟩, hfirstRead, hread⟩ := Except.bind_eq_ok_iff.mp hread
    obtain ⟨⟨⟨more, token⟩, after, hafter⟩, hmore, hread⟩ := Except.bind_eq_ok_iff.mp hread
    cases hread
    have hderived := derives_of_itemsUntil derives hlast hfirst hnext false afterItem _ hmore
    split at hcomma
    · next hfirst' =>
      cases hcomma
      rw [hfirst']
      exact hfirst _ _ _ _ _ _ _ _ hfirstRead hderived
    · next hlater =>
      obtain ⟨⟨comma, tail, htail⟩, hdelimiter, hcomma⟩ := Except.map_eq_ok_iff.mp hcomma
      cases hcomma
      obtain ⟨rfl, hsign⟩ := eq_cons_of_delimiter hdelimiter
      rw [Bool.eq_false_iff.mpr hlater]
      exact hnext _ _ _ _ _ _ _ _ _ hsign hfirstRead hderived
termination_by tokens.length

end Reading

namespace Parser

open Reading

variable (stop : Span)

/-- That lists of fewer tokens than a bound are read by the grammar. These are the readers that are
    used behind a token already read. -/
structure SoundBelow (bound : Nat) : Prop where
  primary : ∀ {tokens value rest hrest}, tokens.length < bound →
    primary stop tokens = .ok ⟨value, rest, hrest⟩ → Reads stop (.primary value) tokens rest
  climb : ∀ {tokens left least whole rest hrest}, tokens.length < bound →
    climb stop left least tokens = .ok ⟨whole, rest, hrest⟩ →
      Reads stop (.onwards left least whole) tokens rest
  expression : ∀ {tokens value rest hrest}, tokens.length < bound →
    expression stop tokens = .ok ⟨value, rest, hrest⟩ → Reads stop (.expression value) tokens rest
  constructed : ∀ {tokens owner callee rest hrest}, tokens.length < bound →
    constructed stop owner tokens = .ok ⟨callee, rest, hrest⟩ →
      Reads stop (.constructed owner callee) tokens rest
  statements : ∀ {tokens words body rest hrest}, tokens.length < bound →
    statements stop words tokens = .ok ⟨body, rest, hrest⟩ →
      Reads stop (.sequence words body) tokens rest
  block : ∀ {tokens body rest hrest}, tokens.length < bound →
    block stop tokens = .ok ⟨body, rest, hrest⟩ → Reads stop (.block body) tokens rest
  condition : ∀ {tokens start value rest hrest}, tokens.length < bound →
    condition stop start tokens = .ok ⟨value, rest, hrest⟩ →
      Reads stop (.behind .ifWord start value) tokens rest
  members : ∀ {tokens parts rest hrest}, tokens.length < bound →
    members stop tokens = .ok ⟨parts, rest, hrest⟩ → Reads stop (.members parts) tokens rest

variable {stop} {bound : Nat} {tokens rest : List Token}

/-- Expressions between delimiters, where as many tokens are left as were promised. -/
theorem reads_items (hbelow : SoundBelow stop bound) {close : String} {limit : Nat}
    (hlimit : limit < bound) {isFirst : Bool} {hbound : tokens.length ≤ limit}
    {items : List Expression} {last : Token} {hrest}
    (hread : itemsUntil stop close limit (fun tokens _ => expression stop tokens) isFirst tokens
      hbound = .ok ⟨(items, last), rest, hrest⟩) :
    Reads stop (.items close isFirst items last) tokens rest := by
  refine derives_of_itemsUntil (fun isFirst items last tokens rest =>
    Reads stop (.items close isFirst items last) tokens rest) ?_ ?_ ?_ isFirst tokens hbound hread
  · intro isFirst token tail hclose
    exact .lastItem hclose
  · intro tokens hshort first middle _ more last rest hfirst hmore
    exact .firstItem (hbelow.expression (Nat.lt_of_le_of_lt hshort hlimit) hfirst) hmore
  · intro comma tail hshort first middle _ more last rest hcomma hfirst hmore
    exact .nextItem hcomma (hbelow.expression (Nat.lt_of_le_of_lt hshort hlimit) hfirst) hmore

theorem reads_entries (hbelow : SoundBelow stop bound) {limit : Nat} (hlimit : limit < bound)
    {isFirst : Bool} {hbound : tokens.length ≤ limit} {entries : List (String × Expression)}
    {last : Token} {hrest}
    (hread : itemsUntil stop "\x7d" limit (fun tokens _ => entry stop tokens) isFirst tokens
      hbound = .ok ⟨(entries, last), rest, hrest⟩) :
    Reads stop (.entries isFirst entries last) tokens rest := by
  refine derives_of_itemsUntil (fun isFirst entries last tokens rest =>
    Reads stop (.entries isFirst entries last) tokens rest) ?_ ?_ ?_ isFirst tokens hbound hread
  · intro isFirst token tail hclose
    exact .lastEntry hclose
  · intro tokens hshort first middle hmiddle more last rest hfirst hmore
    rw [entry] at hfirst
    obtain ⟨⟨key, afterKey, hafterKey⟩, hkey, hfirst⟩ := Except.bind_eq_ok_iff.mp hfirst
    obtain ⟨⟨value, after, hafter⟩, hvalue, hfirst⟩ := Except.bind_eq_ok_iff.mp hfirst
    cases hfirst
    have hshorter := Nat.lt_trans (Nat.lt_of_lt_of_le hafterKey hshort) hlimit
    exact .firstEntry hkey (hbelow.expression hshorter hvalue) hmore
  · intro comma tail hshort first middle hmiddle more last rest hcomma hfirst hmore
    rw [entry] at hfirst
    obtain ⟨⟨key, afterKey, hafterKey⟩, hkey, hfirst⟩ := Except.bind_eq_ok_iff.mp hfirst
    obtain ⟨⟨value, after, hafter⟩, hvalue, hfirst⟩ := Except.bind_eq_ok_iff.mp hfirst
    cases hfirst
    have hshorter := Nat.lt_trans (Nat.lt_of_lt_of_le hafterKey hshort) hlimit
    exact .nextEntry hcomma hkey (hbelow.expression hshorter hvalue) hmore

/-! ### Expressions -/

theorem reads_delimited (hbelow : SoundBelow stop bound) {token : Token} {tail : List Token}
    (htail : tail.length < bound) (hkind : token.kind = .delimiter) {value : Expression} {hrest}
    (hread : primary stop (token :: tail) = .ok ⟨value, rest, hrest⟩) :
    Reads stop (.primary value) (token :: tail) rest := by
  rw [primary, hkind] at hread
  dsimp only at hread
  split at hread
  · next htext =>
    obtain ⟨⟨inner, middle, hmiddle⟩, hinner, hread⟩ := Except.bind_eq_ok_iff.mp hread
    obtain ⟨⟨close, after, hafter⟩, hclose, hread⟩ := Except.bind_eq_ok_iff.mp hread
    cases hread
    have hinner := hbelow.expression htail hinner
    obtain ⟨rfl, hend⟩ := eq_cons_of_delimiter hclose
    exact .parentheses (by simp [Token.isDelimiter, hkind, htext]) hinner hend
  · split at hread
    · next htext =>
      obtain ⟨⟨⟨items, close⟩, after, hafter⟩, hitems, hread⟩ := Except.bind_eq_ok_iff.mp hread
      cases hread
      exact .array (by simp [Token.isDelimiter, hkind, htext]) (reads_items hbelow htail hitems)
    · split at hread
      · next htext =>
        obtain ⟨⟨⟨entries, close⟩, after, hafter⟩, hentries, hread⟩ :=
          Except.bind_eq_ok_iff.mp hread
        cases hread
        exact .object (by simp [Token.isDelimiter, hkind, htext])
          (reads_entries hbelow htail hentries)
      · cases hread

theorem reads_opened (hbelow : SoundBelow stop bound) {token : Token} {tail : List Token}
    (htail : tail.length < bound) (hkind : token.kind = .keyword) {value : Expression} {hrest}
    (hread : primary stop (token :: tail) = .ok ⟨value, rest, hrest⟩) :
    Reads stop (.primary value) (token :: tail) rest := by
  rw [primary, hkind] at hread
  dsimp only at hread
  split at hread
  · next hword =>
    obtain ⟨⟨params, afterParams, hafterParams⟩, hparams, hread⟩ := Except.bind_eq_ok_iff.mp hread
    obtain ⟨⟨body, after, hafter⟩, hbody, hread⟩ := Except.bind_eq_ok_iff.mp hread
    cases hread
    exact .lambda hword hparams (hbelow.block (Nat.lt_trans hafterParams htail) hbody)
  · split at hread
    · next hword =>
      obtain ⟨⟨body, afterBody, hafterBody⟩, hbody, hread⟩ := Except.bind_eq_ok_iff.mp hread
      obtain ⟨⟨close, after, hafter⟩, hclose, hread⟩ := Except.bind_eq_ok_iff.mp hread
      cases hread
      have hbody := hbelow.statements htail hbody
      obtain ⟨rfl, hend⟩ := eq_cons_of_keyword hclose
      exact .lambdaAlone (.block hword hbody hend)
    · split at hread
      · next hword =>
        obtain ⟨⟨owner, middle, hmiddle⟩, howner, hread⟩ := Except.bind_eq_ok_iff.mp hread
        obtain ⟨⟨callee, afterCallee, hafterCallee⟩, hcallee, hread⟩ :=
          Except.bind_eq_ok_iff.mp hread
        obtain ⟨⟨opening, inside, hinside⟩, hopening, hread⟩ := Except.bind_eq_ok_iff.mp hread
        obtain ⟨⟨⟨args, close⟩, after, hafter⟩, hargs, hread⟩ := Except.bind_eq_ok_iff.mp hread
        cases hread
        have hshort := Nat.lt_trans hmiddle htail
        have howner := hbelow.primary htail howner
        have hcallee := hbelow.constructed hshort hcallee
        have hargs := reads_items hbelow
          (Nat.lt_trans hinside (Nat.lt_of_le_of_lt hafterCallee hshort)) hargs
        obtain ⟨rfl, hparen⟩ := eq_cons_of_delimiter hopening
        exact .construct hword howner hcallee hparen hargs
      · cases hread

theorem reads_primary (hbelow : SoundBelow stop bound) (hlen : tokens.length ≤ bound)
    {value : Expression} {hrest} (hread : primary stop tokens = .ok ⟨value, rest, hrest⟩) :
    Reads stop (.primary value) tokens rest := by
  cases tokens with
  | nil =>
    rw [primary] at hread
    cases hread
  | cons token tail =>
    have hwhole := hread
    rw [primary] at hread
    split at hread
    · next hkind =>
      cases hread
      exact .string hkind
    · next hkind =>
      cases hread
      exact .number hkind
    · next hkind =>
      cases hread
      exact .name hkind
    · next hkind =>
      split at hread
      · cases hread
      · next op hop =>
        obtain ⟨⟨inner, middle, hmiddle⟩, hinner, hread⟩ := Except.bind_eq_ok_iff.mp hread
        obtain ⟨⟨operand, after, hafter⟩, hoperand, hread⟩ := Except.bind_eq_ok_iff.mp hread
        cases hread
        exact .unary hkind hop (hbelow.primary hlen hinner)
          (hbelow.climb (Nat.lt_trans hmiddle hlen) hoperand)
    · next hkind => exact reads_delimited hbelow hlen hkind hwhole
    · next hkind => exact reads_opened hbelow hlen hkind hwhole
    · cases hread

theorem reads_climb (hbelow : SoundBelow stop bound) (hlen : tokens.length ≤ bound)
    {left whole : Expression} {least : Nat} {hrest}
    (hread : climb stop left least tokens = .ok ⟨whole, rest, hrest⟩) :
    Reads stop (.onwards left least whole) tokens rest := by
  cases tokens with
  | nil =>
    rw [climb] at hread
    cases hread
    exact .enough (by simp)
  | cons token tail =>
    have htail : tail.length < bound := hlen
    rw [climb] at hread
    split at hread
    · next hbinding =>
      cases hread
      exact .enough (by simp [hbinding])
    · next binding hbinding =>
      split at hread
      · next hweak =>
        cases hread
        exact .enough (by simpa [hbinding] using hweak)
      · next hstrong =>
        have hleast := Nat.le_of_not_lt hstrong
        split at hread
        · obtain ⟨⟨⟨args, close⟩, middle, hmiddle⟩, hargs, hread⟩ := Except.bind_eq_ok_iff.mp hread
          obtain ⟨⟨inner, after, hafter⟩, hinner, hread⟩ := Except.bind_eq_ok_iff.mp hread
          cases hread
          exact .call hbinding hleast (reads_items hbelow htail hargs)
            (hbelow.climb (by omega) hinner)
        · next op =>
          obtain ⟨⟨operand, afterOperand, hafterOperand⟩, hoperand, hread⟩ :=
            Except.bind_eq_ok_iff.mp hread
          obtain ⟨⟨right, middle, hmiddle⟩, hright, hread⟩ := Except.bind_eq_ok_iff.mp hread
          obtain ⟨⟨inner, after, hafter⟩, hinner, hread⟩ := Except.bind_eq_ok_iff.mp hread
          cases hread
          exact .binary hbinding hleast (hbelow.primary htail hoperand)
            (hbelow.climb (by omega) hright) (hbelow.climb (by omega) hinner)

theorem reads_expression (hbelow : SoundBelow stop bound) (hlen : tokens.length ≤ bound)
    {value : Expression} {hrest} (hread : expression stop tokens = .ok ⟨value, rest, hrest⟩) :
    Reads stop (.expression value) tokens rest := by
  rw [expression] at hread
  obtain ⟨⟨operand, middle, hmiddle⟩, hoperand, hread⟩ := Except.bind_eq_ok_iff.mp hread
  obtain ⟨⟨target, afterTarget, hafterTarget⟩, htarget, hread⟩ := Except.bind_eq_ok_iff.mp hread
  have hoperand := reads_primary hbelow hlen hoperand
  have htarget := hbelow.climb (by omega) htarget
  dsimp only at hread
  split at hread
  · next hend =>
    cases hread
    exact .operand hoperand htarget hend
  · next sign afterSign hafterSign haccept =>
    split at hread
    · cases hread
    · next op hop =>
      obtain ⟨⟨inner, after, hafter⟩, hinner, hread⟩ := Except.bind_eq_ok_iff.mp hread
      cases hread
      have hinner := hbelow.expression (by omega) hinner
      obtain ⟨rfl, hsign⟩ := eq_cons_of_accept haccept
      obtain ⟨hsign, hassignable⟩ := Bool.and_eq_true_iff.mp hsign
      exact .assignment hoperand htarget hsign hassignable hop hinner

theorem reads_constructed (hbelow : SoundBelow stop bound) (hlen : tokens.length ≤ bound)
    {owner callee : Expression} {hrest}
    (hread : constructed stop owner tokens = .ok ⟨callee, rest, hrest⟩) :
    Reads stop (.constructed owner callee) tokens rest := by
  rw [constructed] at hread
  split at hread
  · next hend =>
    cases hread
    exact .owner hend
  · next point afterPoint hafterPoint haccept =>
    obtain ⟨⟨key, middle, hmiddle⟩, hkey, hread⟩ := Except.bind_eq_ok_iff.mp hread
    obtain ⟨⟨inner, after, hafter⟩, hinner, hread⟩ := Except.bind_eq_ok_iff.mp hread
    cases hread
    have hkey := hbelow.primary (by omega) hkey
    have hinner := hbelow.constructed (by omega) hinner
    obtain ⟨rfl, hpoint⟩ := eq_cons_of_accept haccept
    exact .joined hpoint hkey hinner

/-! ### Blocks and statements behind their opening word -/

theorem reads_block (hbelow : SoundBelow stop bound) (hlen : tokens.length ≤ bound) {body : Block}
    {hrest} (hread : block stop tokens = .ok ⟨body, rest, hrest⟩) :
    Reads stop (.block body) tokens rest := by
  rw [block] at hread
  obtain ⟨⟨opening, inside, hinside⟩, hopening, hread⟩ := Except.bind_eq_ok_iff.mp hread
  obtain ⟨⟨inner, afterBody, hafter⟩, hbody, hread⟩ := Except.bind_eq_ok_iff.mp hread
  obtain ⟨⟨close, after, hafterClose⟩, hclose, hread⟩ := Except.bind_eq_ok_iff.mp hread
  cases hread
  have hbody := hbelow.statements (by omega) hbody
  obtain ⟨rfl, hdo⟩ := eq_cons_of_keyword hopening
  obtain ⟨rfl, hend⟩ := eq_cons_of_keyword hclose
  exact .block hdo hbody hend

theorem reads_condition (hbelow : SoundBelow stop bound) (hlen : tokens.length ≤ bound)
    {start : Span} {value : Statement} {hrest}
    (hread : condition stop start tokens = .ok ⟨value, rest, hrest⟩) :
    Reads stop (.behind .ifWord start value) tokens rest := by
  rw [condition] at hread
  obtain ⟨⟨test, afterTest, hafterTest⟩, htest, hread⟩ := Except.bind_eq_ok_iff.mp hread
  obtain ⟨⟨thenWord, inside, hinside⟩, hthen, hread⟩ := Except.bind_eq_ok_iff.mp hread
  obtain ⟨⟨thenBody, afterThen, hafterThen⟩, hbody, hread⟩ := Except.bind_eq_ok_iff.mp hread
  have htest := reads_expression hbelow hlen htest
  have hbody := hbelow.statements (by omega) hbody
  have hinner : afterThen.length < bound := by omega
  obtain ⟨rfl, hword⟩ := eq_cons_of_keyword hthen
  dsimp only at hread
  split at hread
  · next close after hafter haccept =>
    cases hread
    obtain ⟨rfl, hclose⟩ := eq_cons_of_accept haccept
    exact .conditionAlone htest hword hbody hclose _ rfl
  · obtain ⟨⟨elseWord, afterElse, hafterElse⟩, helse, hread⟩ := Except.bind_eq_ok_iff.mp hread
    have helseBound : afterElse.length < bound := Nat.lt_trans hafterElse hinner
    obtain ⟨rfl, hother⟩ := eq_cons_of_keyword helse
    dsimp only at hread
    split at hread
    · next ifWord afterIf hafterIf haccept =>
      obtain ⟨⟨branch, after, hafter⟩, hbranch, hread⟩ := Except.bind_eq_ok_iff.mp hread
      cases hread
      have hbranch := hbelow.condition (by omega) hbranch
      obtain ⟨rfl, hif⟩ := eq_cons_of_accept haccept
      exact .conditionChain htest hword hbody hother hif hbranch _ rfl
    · next hif =>
      obtain ⟨⟨elseBody, afterBody, hafterBody⟩, helseBody, hread⟩ :=
        Except.bind_eq_ok_iff.mp hread
      obtain ⟨⟨close, after, hafter⟩, hclose, hread⟩ := Except.bind_eq_ok_iff.mp hread
      cases hread
      have helseBody := hbelow.statements helseBound helseBody
      obtain ⟨rfl, hend⟩ := eq_cons_of_keyword hclose
      exact .conditionElse htest hword hbody hother hif helseBody hend _ rfl _ rfl

theorem reads_forLoop (hbelow : SoundBelow stop bound) (hlen : tokens.length ≤ bound)
    {start : Span} {value : Statement} {hrest}
    (hread : forLoop stop start tokens = .ok ⟨value, rest, hrest⟩) :
    Reads stop (.behind .forWord start value) tokens rest := by
  rw [forLoop] at hread
  obtain ⟨⟨item, afterItem, hafterItem⟩, hitem, hread⟩ := Except.bind_eq_ok_iff.mp hread
  obtain ⟨⟨inWord, afterIn, hafterIn⟩, hin, hread⟩ := Except.bind_eq_ok_iff.mp hread
  obtain ⟨⟨iterable, middle, hmiddle⟩, hiterable, hread⟩ := Except.bind_eq_ok_iff.mp hread
  obtain ⟨⟨body, after, hafter⟩, hbody, hread⟩ := Except.bind_eq_ok_iff.mp hread
  cases hread
  have hiterable := hbelow.expression (by omega) hiterable
  have hbody := hbelow.block (by omega) hbody
  obtain ⟨name, rfl, hname, rfl⟩ := eq_cons_of_identifier hitem
  obtain ⟨rfl, hword⟩ := eq_cons_of_keyword hin
  exact .forLoop hname hword hiterable hbody

theorem reads_whileLoop (hbelow : SoundBelow stop bound) (hlen : tokens.length ≤ bound)
    {start : Span} {value : Statement} {hrest}
    (hread : whileLoop stop start tokens = .ok ⟨value, rest, hrest⟩) :
    Reads stop (.behind .whileWord start value) tokens rest := by
  rw [whileLoop] at hread
  obtain ⟨⟨test, middle, hmiddle⟩, htest, hread⟩ := Except.bind_eq_ok_iff.mp hread
  obtain ⟨⟨body, after, hafter⟩, hbody, hread⟩ := Except.bind_eq_ok_iff.mp hread
  cases hread
  exact .whileLoop (reads_expression hbelow hlen htest) (hbelow.block (by omega) hbody)

theorem reads_functionDecl (hbelow : SoundBelow stop bound) (hlen : tokens.length ≤ bound)
    {start : Span} {value : Statement} {hrest}
    (hread : functionDecl stop start tokens = .ok ⟨value, rest, hrest⟩) :
    Reads stop (.behind .functionWord start value) tokens rest := by
  rw [functionDecl] at hread
  obtain ⟨⟨item, afterName, hafterName⟩, hitem, hread⟩ := Except.bind_eq_ok_iff.mp hread
  obtain ⟨⟨params, afterParams, hafterParams⟩, hparams, hread⟩ := Except.bind_eq_ok_iff.mp hread
  obtain ⟨⟨body, after, hafter⟩, hbody, hread⟩ := Except.bind_eq_ok_iff.mp hread
  cases hread
  have hbody := hbelow.block (by omega) hbody
  obtain ⟨name, rfl, hname, rfl⟩ := eq_cons_of_identifier hitem
  split at hparams
  · obtain ⟨reading, hreading, hparams⟩ := Except.map_eq_ok_iff.mp hparams
    cases hparams
    exact .functionWith hname hreading hbody
  · next hopening =>
    cases hparams
    exact .functionDecl hname (Option.not_isSome_iff_eq_none.mp hopening) hbody

theorem reads_classDecl (hbelow : SoundBelow stop bound) (hlen : tokens.length ≤ bound)
    {start : Span} {value : Statement} {hrest}
    (hread : classDecl stop start tokens = .ok ⟨value, rest, hrest⟩) :
    Reads stop (.behind .classWord start value) tokens rest := by
  rw [classDecl] at hread
  obtain ⟨⟨item, afterName, hafterName⟩, hitem, hread⟩ := Except.bind_eq_ok_iff.mp hread
  obtain ⟨⟨opening, inside, hinside⟩, hopening, hread⟩ := Except.bind_eq_ok_iff.mp hread
  obtain ⟨⟨parts, afterParts, hafterParts⟩, hparts, hread⟩ := Except.bind_eq_ok_iff.mp hread
  obtain ⟨⟨close, after, hafter⟩, hclose, hread⟩ := Except.bind_eq_ok_iff.mp hread
  cases hread
  have hparts := hbelow.members (by omega) hparts
  obtain ⟨name, rfl, hname, rfl⟩ := eq_cons_of_identifier hitem
  obtain ⟨rfl, hdo⟩ := eq_cons_of_keyword hopening
  obtain ⟨rfl, hend⟩ := eq_cons_of_keyword hclose
  exact .classDecl hname hdo hparts hend

theorem reads_returnValue (hbelow : SoundBelow stop bound) (hlen : tokens.length ≤ bound)
    {start : Span} {value : Statement} {hrest}
    (hread : returnValue stop start tokens = .ok ⟨value, rest, hrest⟩) :
    Reads stop (.behind .returnWord start value) tokens rest := by
  rw [returnValue] at hread
  split at hread
  · next hmore =>
    obtain ⟨⟨inner, after, hafter⟩, hinner, hread⟩ := Except.bind_eq_ok_iff.mp hread
    cases hread
    exact .returnValue hmore (reads_expression hbelow hlen hinner)
  · next hend =>
    cases hread
    exact .returnNothing (Bool.eq_false_iff.mpr hend)

theorem reads_localAssignment (hbelow : SoundBelow stop bound) (hlen : tokens.length ≤ bound)
    {start : Span} {value : Statement} {hrest}
    (hread : localAssignment stop start tokens = .ok ⟨value, rest, hrest⟩) :
    Reads stop (.behind .localWord start value) tokens rest := by
  rw [localAssignment] at hread
  obtain ⟨⟨inner, after, hafter⟩, hinner, hread⟩ := Except.bind_eq_ok_iff.mp hread
  obtain ⟨marked, hmarked, hread⟩ := Except.bind_eq_ok_iff.mp hread
  cases hread
  have hinner := reads_expression hbelow hlen hinner
  unfold localStatement at hmarked
  split at hmarked
  · cases hmarked
    exact .localAssignment hinner
  · cases hmarked

theorem reads_exportPlain (hbelow : SoundBelow stop bound) (hlen : tokens.length ≤ bound)
    {start : Span} {declaration : Statement} {hrest}
    (hread : expressionStatement stop tokens = .ok ⟨declaration, rest, hrest⟩) :
    Reads stop (.behind .exportWord start
      (.exportDecl declaration (start.through declaration.span))) tokens rest := by
  rw [expressionStatement] at hread
  obtain ⟨⟨whole, last, hlast⟩, hwhole, hread⟩ := Except.bind_eq_ok_iff.mp hread
  cases hread
  exact .exportPlain (reads_expression hbelow hlen hwhole)

/-- What is exported is read like what is not, behind the word that opens it. -/
theorem reads_exportOpened {word : Keyword} {token : Token} {tail : List Token}
    {reader : Except CompileError (Reading Statement tail)} (hword : token.keyword? = some word)
    (hkind : word ∈ [Keyword.functionWord, .classWord, .localWord])
    (hreader : ∀ value rest hrest, reader = .ok ⟨value, rest, hrest⟩ →
      Reads stop (.behind word token.span value) tail rest)
    {start : Span} {value : Statement} {hrest}
    (hread : (do
      let ⟨declaration, rest, hrest⟩ ← reader.map fun reading => reading.behind token
      return ⟨.exportDecl declaration (start.through declaration.span), rest, hrest⟩ :
        Except CompileError (Reading Statement (token :: tail))) = .ok ⟨value, rest, hrest⟩) :
    Reads stop (.behind .exportWord start value) (token :: tail) rest := by
  obtain ⟨⟨_, _, _⟩, hinner, hread⟩ := Except.bind_eq_ok_iff.mp hread
  obtain ⟨⟨_, _, _⟩, hbehind, hinner⟩ := Except.map_eq_ok_iff.mp hinner
  cases hinner
  cases hread
  exact .exportOpened hword hkind (hreader _ _ _ hbehind)

theorem reads_exportDecl (hbelow : SoundBelow stop bound) (hlen : tokens.length ≤ bound)
    {start : Span} {value : Statement} {hrest}
    (hread : exportDecl stop start tokens = .ok ⟨value, rest, hrest⟩) :
    Reads stop (.behind .exportWord start value) tokens rest := by
  cases tokens with
  | nil =>
    rw [exportDecl] at hread
    obtain ⟨⟨_, _, _⟩, hinner, hread⟩ := Except.bind_eq_ok_iff.mp hread
    cases hread
    exact reads_exportPlain hbelow hlen hinner
  | cons token tail =>
    have htail : tail.length ≤ bound := Nat.le_of_lt hlen
    rw [exportDecl] at hread
    split at hread
    · next hword =>
      exact reads_exportOpened hword (by simp) (fun _ _ _ => reads_functionDecl hbelow htail) hread
    · next hword =>
      exact reads_exportOpened hword (by simp) (fun _ _ _ => reads_classDecl hbelow htail) hread
    · next hword =>
      exact reads_exportOpened hword (by simp) (fun _ _ _ => reads_localAssignment hbelow htail)
        hread
    · obtain ⟨⟨_, _, _⟩, hinner, hread⟩ := Except.bind_eq_ok_iff.mp hread
      cases hread
      exact reads_exportPlain hbelow hlen hinner

/-! ### Statements and members -/

/-- The word that opens a statement is read ahead of the rest of it. -/
theorem reads_behind {word : Keyword} {token : Token} {tail : List Token}
    {reader : Except CompileError (Reading Statement tail)} (hword : token.keyword? = some word)
    (hreader : ∀ value rest hrest, reader = .ok ⟨value, rest, hrest⟩ →
      Reads stop (.behind word token.span value) tail rest)
    {value : Statement} {hrest}
    (hread : (do return (← reader).behind token) = .ok ⟨value, rest, hrest⟩) :
    Reads stop (.bare value) (token :: tail) rest := by
  obtain ⟨⟨_, _, _⟩, hbehind, hread⟩ := Except.bind_eq_ok_iff.mp hread
  cases hread
  exact .opened hword (hreader _ _ _ hbehind)

theorem reads_bare (hbelow : SoundBelow stop bound) (hlen : tokens.length ≤ bound)
    {value : Statement} {hrest} (hread : unguarded stop tokens = .ok ⟨value, rest, hrest⟩) :
    Reads stop (.bare value) tokens rest := by
  have hplain {tokens rest : List Token} {hrest} (hlen : tokens.length ≤ bound)
      (hread : expressionStatement stop tokens = .ok ⟨value, rest, hrest⟩) :
      Reads stop (.bare value) tokens rest := by
    rw [expressionStatement] at hread
    obtain ⟨⟨_, _, _⟩, hvalue, hread⟩ := Except.bind_eq_ok_iff.mp hread
    cases hread
    exact .plain (reads_expression hbelow hlen hvalue)
  cases tokens with
  | nil =>
    rw [unguarded] at hread
    exact hplain hlen hread
  | cons token tail =>
    have htail : tail.length ≤ bound := Nat.le_of_lt hlen
    rw [unguarded] at hread
    split at hread
    · next hword => exact reads_behind hword (fun _ _ _ => reads_condition hbelow htail) hread
    · next hword => exact reads_behind hword (fun _ _ _ => reads_forLoop hbelow htail) hread
    · next hword => exact reads_behind hword (fun _ _ _ => reads_whileLoop hbelow htail) hread
    · next hword => exact reads_behind hword (fun _ _ _ => reads_functionDecl hbelow htail) hread
    · next hword => exact reads_behind hword (fun _ _ _ => reads_classDecl hbelow htail) hread
    · next hword =>
      obtain ⟨⟨_, _, _⟩, hbehind, hread⟩ := Except.bind_eq_ok_iff.mp hread
      cases hread
      exact .opened hword (reads_returnValue hbelow htail hbehind)
    · next hword =>
      cases hread
      exact .opened hword .breakLoop
    · next hword =>
      cases hread
      exact .opened hword .continueLoop
    · next hword => exact reads_behind hword (fun _ _ _ => .hostDecl) hread
    · next hword => exact reads_behind hword (fun _ _ _ => reads_localAssignment hbelow htail) hread
    · next hword => exact reads_behind hword (fun _ _ _ => .importModule) hread
    · next hword => exact reads_behind hword (fun _ _ _ => .importExports) hread
    · next hword => exact reads_behind hword (fun _ _ _ => reads_exportDecl hbelow htail) hread
    · exact hplain hlen hread

theorem reads_statement (hbelow : SoundBelow stop bound) (hlen : tokens.length ≤ bound)
    {value : Statement} {hrest} (hread : statement stop tokens = .ok ⟨value, rest, hrest⟩) :
    Reads stop (.statement value) tokens rest := by
  rw [statement] at hread
  obtain ⟨⟨inner, afterInner, hinner⟩, hbare, hread⟩ := Except.bind_eq_ok_iff.mp hread
  have hbare := reads_bare hbelow hlen hbare
  dsimp only at hread
  split at hread
  · next word afterIf hif haccept =>
    obtain ⟨⟨test, rest, hrest⟩, htest, hread⟩ := Except.bind_eq_ok_iff.mp hread
    cases hread
    have htest := hbelow.expression (by omega) htest
    obtain ⟨rfl, hword⟩ := eq_cons_of_accept haccept
    exact .guarded hbare hword htest
  · next haccept =>
    cases hread
    exact .unguarded hbare haccept

theorem reads_statements (hbelow : SoundBelow stop bound) (hlen : tokens.length ≤ bound)
    {words : List Keyword} {body : List Statement} {hrest}
    (hread : statements stop words tokens = .ok ⟨body, rest, hrest⟩) :
    Reads stop (.sequence words body) tokens rest := by
  cases tokens with
  | nil =>
    rw [statements] at hread
    cases hread
    exact .none (by simp)
  | cons token tail =>
    rw [statements] at hread
    split at hread
    · next hword =>
      cases hread
      exact .none (by simpa using hword)
    · obtain ⟨⟨first, middle, hmiddle⟩, hfirst, hread⟩ := Except.bind_eq_ok_iff.mp hread
      obtain ⟨⟨more, after, hafter⟩, hmore, hread⟩ := Except.bind_eq_ok_iff.mp hread
      cases hread
      exact .more (reads_statement hbelow hlen hfirst)
        (hbelow.statements (Nat.lt_of_lt_of_le hmiddle hlen) hmore)

theorem reads_method (hbelow : SoundBelow stop bound) (hlen : tokens.length ≤ bound)
    {part : ClassMember} {hrest} (hread : method stop tokens = .ok ⟨part, rest, hrest⟩) :
    Reads stop (.member part) tokens rest := by
  rw [method] at hread
  obtain ⟨⟨name, afterName, hafterName⟩, hname, hread⟩ := Except.bind_eq_ok_iff.mp hread
  obtain ⟨⟨params, afterParams, hafterParams⟩, hparams, hread⟩ := Except.bind_eq_ok_iff.mp hread
  obtain ⟨⟨body, after, hafter⟩, hbody, hread⟩ := Except.bind_eq_ok_iff.mp hread
  cases hread
  have hshort := Nat.lt_trans hafterParams (Nat.lt_of_lt_of_le hafterName hlen)
  exact .method hname hparams (hbelow.block hshort hbody)

theorem reads_member (hbelow : SoundBelow stop bound) (hlen : tokens.length ≤ bound)
    {part : ClassMember} {hrest} (hread : member stop tokens = .ok ⟨part, rest, hrest⟩) :
    Reads stop (.member part) tokens rest := by
  match tokens, hlen, hrest, hread with
  | [], hlen, _, hread =>
    rw [member] at hread
    · exact reads_method hbelow hlen hread
    · simp
  | [token], hlen, _, hread =>
    rw [member] at hread
    · exact reads_method hbelow hlen hread
    · simp
  | token :: sign :: afterSign, hlen, _, hread =>
    rw [member] at hread
    split at hread
    · next hkinds =>
      obtain ⟨⟨value, after, hafter⟩, hvalue, hread⟩ := Except.bind_eq_ok_iff.mp hread
      cases hread
      obtain ⟨hname, hsign⟩ := Bool.and_eq_true_iff.mp hkinds
      have hshort : afterSign.length < bound := Nat.lt_of_succ_lt hlen
      exact .field (by simpa using hname) (by simpa using hsign) (hbelow.expression hshort hvalue)
    · exact reads_method hbelow hlen hread

theorem reads_members (hbelow : SoundBelow stop bound) (hlen : tokens.length ≤ bound)
    {parts : List ClassMember} {hrest} (hread : members stop tokens = .ok ⟨parts, rest, hrest⟩) :
    Reads stop (.members parts) tokens rest := by
  cases tokens with
  | nil =>
    rw [members] at hread
    cases hread
    exact .noMember (by simp)
  | cons token tail =>
    rw [members] at hread
    split at hread
    · next hword =>
      cases hread
      exact .noMember (by simpa using hword)
    · obtain ⟨⟨first, middle, hmiddle⟩, hfirst, hread⟩ := Except.bind_eq_ok_iff.mp hread
      obtain ⟨⟨more, after, hafter⟩, hmore, hread⟩ := Except.bind_eq_ok_iff.mp hread
      cases hread
      exact .moreMembers (reads_member hbelow hlen hfirst)
        (hbelow.members (Nat.lt_of_lt_of_le hmiddle hlen) hmore)

/-- Every list of tokens is read by the grammar. -/
theorem soundBelow (stop : Span) (bound : Nat) : SoundBelow stop bound := by
  induction bound with
  | zero => constructor <;> (intros; omega)
  | succ bound ih =>
    constructor
    · exact fun hlen => reads_primary ih (Nat.le_of_lt_succ hlen)
    · exact fun hlen => reads_climb ih (Nat.le_of_lt_succ hlen)
    · exact fun hlen => reads_expression ih (Nat.le_of_lt_succ hlen)
    · exact fun hlen => reads_constructed ih (Nat.le_of_lt_succ hlen)
    · exact fun hlen => reads_statements ih (Nat.le_of_lt_succ hlen)
    · exact fun hlen => reads_block ih (Nat.le_of_lt_succ hlen)
    · exact fun hlen => reads_condition ih (Nat.le_of_lt_succ hlen)
    · exact fun hlen => reads_members ih (Nat.le_of_lt_succ hlen)

end Parser

/-- The body of a program that is read off a list of tokens is derived by the grammar. -/
theorem Program.reads_ofTokens {tokens : List Token} {program : Program}
    (hread : ofTokens tokens = .ok program) :
    ∃ rest, Reads (endSpan tokens) (.sequence [] program.body) (programTokens tokens) rest := by
  obtain ⟨⟨body, rest, hrest⟩, hbody, hread⟩ := Except.bind_eq_ok_iff.mp hread
  cases hread
  exact ⟨rest, (Parser.soundBelow _ _).statements (Nat.lt_succ_self _) hbody⟩

theorem Program.exists_reads_ofSource {source : String} {program : Program}
    (hread : ofSource source = .ok program) :
    ∃ stop tokens rest, Reads stop (.sequence [] program.body) tokens rest := by
  obtain ⟨tokens, _, hread⟩ := Except.bind_eq_ok_iff.mp hread
  obtain ⟨rest, hreads⟩ := reads_ofTokens hread
  exact ⟨endSpan tokens, programTokens tokens, rest, hreads⟩

end KaLang
