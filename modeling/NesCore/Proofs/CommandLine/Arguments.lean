import NesCore.CommandLine.Options

/-!
# Reading a command line

A command line that is understood is read option by option (`Draft.Reads`, `Draft.read_eq_ok_iff`).
Settings do not look at switches, and switches not at each other, so that the word of a switch can
be taken out of a line (`Draft.Reads.erase`), or put in front of one that leaves the switch alone
(`Draft.Reads.put`). Hence a line with `--trace` or `--color` is understood without it as well, as a
request for the same run without a trace or in plain (`ofArguments_erase_trace`,
`ofArguments_erase_colour`). A limit on the steps is at least one (`one_le_of_ofArguments`).
-/

namespace NesCore.CommandLine

namespace Draft

/-! ## Successful readings -/

/-- The words lead from one draft to another. -/
inductive Reads : Draft → List String → Draft → Prop
  | nil (d : Draft) : Reads d [] d
  /-- Two dashes may end the line. -/
  | dashes {d : Draft} {word : String} (hword : word.toList = ['-', '-']) : Reads d [word] d
  | attached {d d₁ d' : Draft} {word value : String} {long : List Char} {setting : Setting}
    {words : List String} (hword : word.toList = '-' :: '-' :: long) (hlong : long ≠ [])
    (hoption : longOption long = .setting setting (some value))
    (hgive : d.give setting value = .ok d₁) (rest : Reads d₁ words d') :
    Reads d (word :: words) d'
  | separate {d d₁ d' : Draft} {word value : String} {long : List Char} {setting : Setting}
    {words : List String} (hword : word.toList = '-' :: '-' :: long) (hlong : long ≠ [])
    (hoption : longOption long = .setting setting none) (hvalue : isValue value = true)
    (hgive : d.give setting value = .ok d₁) (rest : Reads d₁ words d') :
    Reads d (word :: value :: words) d'
  | switch {d d₁ d' : Draft} {word : String} {long : List Char} {switch : Switch}
    {words : List String} (hword : word.toList = '-' :: '-' :: long) (hlong : long ≠ [])
    (hoption : longOption long = .switch switch) (hturnOn : d.turnOn switch = .ok d₁)
    (rest : Reads d₁ words d') : Reads d (word :: words) d'
  | letters {d d₁ d' : Draft} {word : String} {first : Char} {letters : List Char}
    {words : List String} (hword : word.toList = '-' :: first :: letters) (hfirst : first ≠ '-')
    (hturnOn : d.turnOnLetters (first :: letters) = .ok d₁) (rest : Reads d₁ words d') :
    Reads d (word :: words) d'

theorem exists_of_bind_eq_ok {x : Reading} {f : Draft → Reading} {d : Draft}
    (h : x.bind f = .ok d) : ∃ d₁, x = .ok d₁ ∧ f d₁ = .ok d := by
  cases x with
  | error request => cases h
  | ok d₁ => exact ⟨d₁, rfl, h⟩

theorem reads_of_read {d d' : Draft} {words : List String} (h : d.read words = .ok d') :
    Reads d words d' := by
  fun_induction read d words with
  | case1 d =>
    cases h
    exact .nil _
  | case2 d word rest hword hrest =>
    cases h
    rw [List.isEmpty_iff.1 hrest]
    exact .dashes hword
  | case4 d word rest long hlong hword setting value hoption ih =>
    obtain ⟨d₁, hgive, hread⟩ := exists_of_bind_eq_ok h
    exact .attached hword hlong hoption hgive (ih d₁ hread)
  | case6 d word long hlong hword setting hoption value rest hvalue ih =>
    obtain ⟨d₁, hgive, hread⟩ := exists_of_bind_eq_ok h
    exact .separate hword hlong hoption hvalue hgive (ih d₁ hread)
  | case8 d word rest long hlong hword switch hoption ih =>
    obtain ⟨d₁, hturnOn, hread⟩ := exists_of_bind_eq_ok h
    exact .switch hword hlong hoption hturnOn (ih d₁ hread)
  | case10 d word rest first letters hdashes hfirst hword ih =>
    obtain ⟨d₁, hturnOn, hread⟩ := exists_of_bind_eq_ok h
    exact .letters hword hfirst hturnOn (ih d₁ hread)
  | case3 | case5 | case7 | case9 | case11 => cases h

theorem read_of_reads {d d' : Draft} {words : List String} (h : Reads d words d') :
    d.read words = .ok d' := by
  induction h with
  | nil d => rfl
  | dashes hword =>
    unfold read
    rw [hword]
    rfl
  | attached hword hlong hoption hgive rest ih =>
    obtain ⟨c, cs, rfl⟩ := List.exists_cons_of_ne_nil hlong
    unfold read
    rw [hword]
    simp only [hoption, hgive]
    exact ih
  | separate hword hlong hoption hvalue hgive rest ih =>
    obtain ⟨c, cs, rfl⟩ := List.exists_cons_of_ne_nil hlong
    unfold read
    rw [hword]
    simp only [hoption, hvalue, hgive]
    exact ih
  | switch hword hlong hoption hturnOn rest ih =>
    obtain ⟨c, cs, rfl⟩ := List.exists_cons_of_ne_nil hlong
    unfold read
    rw [hword]
    simp only [hoption, hturnOn]
    exact ih
  | letters hword hfirst hturnOn rest ih =>
    unfold read
    rw [hword]
    split
    · next heq =>
      cases heq
      exact absurd rfl hfirst
    · next heq =>
      cases heq
      exact absurd rfl hfirst
    · next heq =>
      cases heq
      rw [hturnOn]
      exact ih
    · next hne => exact absurd rfl (hne _ _)

theorem read_eq_ok_iff {d d' : Draft} {words : List String} :
    d.read words = .ok d' ↔ Reads d words d' := ⟨reads_of_read, read_of_reads⟩

/-! ## Readings that end early -/

section EndsEarly

variable {d : Draft} {options : Options}

theorem give_ne_run (setting : Setting) (value : String) :
    d.give setting value ≠ .error (.run options) := by
  unfold give
  dsimp only
  split
  · nofun
  · nofun

theorem turnOn_ne_run (switch : Switch) : d.turnOn switch ≠ .error (.run options) := by
  unfold turnOn
  cases switch with
  | trace | colour | debug =>
    dsimp only
    split
    · nofun
    · nofun
  | help | version => nofun

theorem turnOnLetters_ne_run (letters : List Char) :
    d.turnOnLetters letters ≠ .error (.run options) := by
  fun_induction turnOnLetters d letters with
  | case1 | case2 => nofun
  | case3 d c rest switch hswitch d₁ hturnOn ih => exact ih
  | case4 d c rest switch hswitch request hturnOn =>
    intro h
    cases h
    exact turnOn_ne_run switch hturnOn

theorem bind_ne_run {x : Reading} {f : Draft → Reading} (hx : x ≠ .error (.run options))
    (hf : ∀ d, f d ≠ .error (.run options)) : x.bind f ≠ .error (.run options) := by
  cases x with
  | error request => exact hx
  | ok d => exact hf d

/-- A line that cannot be read to its end asks for no run. -/
theorem read_ne_run (words : List String) : d.read words ≠ .error (.run options) := by
  fun_induction read d words with
  | case4 d word rest long _ _ setting value _ ih => exact bind_ne_run (give_ne_run _ _) ih
  | case6 d word long _ _ setting _ value rest _ ih => exact bind_ne_run (give_ne_run _ _) ih
  | case8 d word rest long _ _ switch _ ih => exact bind_ne_run (turnOn_ne_run _) ih
  | case10 d word rest first letters _ _ _ ih => exact bind_ne_run (turnOnLetters_ne_run _) ih
  | case1 | case2 | case3 | case5 | case7 | case9 | case11 => nofun

end EndsEarly

/-! ## Single options -/

/-- A limit that has been read is at least one. -/
def Limited (d : Draft) : Prop := ∀ n ∈ d.maxSteps, 1 ≤ n

/-- Whether a switch has been turned on. Help and the version leave no mark. -/
def isOn (d : Draft) : Switch → Bool
  | .trace => d.trace
  | .colour => d.colour
  | .debug => d.debug
  | .help | .version => false

/-- The draft with a switch on or off. -/
def put (d : Draft) (on : Bool) : Switch → Draft
  | .trace => { d with trace := on }
  | .colour => { d with colour := on }
  | .debug => { d with debug := on }
  | .help | .version => d

variable {d d₁ d' : Draft} {words : List String} {s t : Switch}

theorem put_put (d : Draft) (on on' : Bool) (s : Switch) :
    (d.put on s).put on' s = d.put on' s := by
  cases s <;> rfl

theorem put_comm (h : s ≠ t) (d : Draft) (on on' : Bool) :
    (d.put on t).put on' s = (d.put on' s).put on t := by
  cases s <;> cases t <;> first | rfl | exact absurd rfl h

theorem put_of_isOn {on : Bool} (h : d.isOn s = on) : d.put on s = d := by
  cases s <;> cases h <;> rfl

theorem isOn_put_of_ne (h : s ≠ t) (d : Draft) (on : Bool) : (d.put on t).isOn s = d.isOn s := by
  cases s <;> cases t <;> first | rfl | exact absurd rfl h

/-- A switch that leaves a mark can be turned on once. -/
theorem turnOn_eq_ok_iff : d.turnOn s = .ok d₁ ↔
    d.isOn s = false ∧ (d.put true s).isOn s = true ∧ d.put true s = d₁ := by
  cases s with
  | trace | colour | debug =>
    unfold turnOn isOn put
    dsimp only
    split <;> simp [*]
  | help | version => exact iff_of_false nofun fun h => nomatch h.2.1

/-- A switch other than this one leaves it alone, and this one comes once. -/
theorem turnOn_eq_ok (h : d.turnOn t = .ok d₁) (s : Switch) :
    d₁.maxSteps = d.maxSteps ∧
      (t = s ∧ d.isOn s = false ∧ d₁.isOn s = true ∧ d₁.put false s = d ∨
        t ≠ s ∧ d₁.isOn s = d.isOn s ∧ ∀ on, (d.put on s).turnOn t = .ok (d₁.put on s)) := by
  obtain ⟨hoff, hmarks, rfl⟩ := turnOn_eq_ok_iff.1 h
  refine ⟨by cases t <;> rfl, ?_⟩
  by_cases hts : t = s
  · subst hts
    refine .inl ⟨rfl, hoff, hmarks, ?_⟩
    rw [put_put, put_of_isOn hoff]
  · refine .inr ⟨hts, isOn_put_of_ne (Ne.symm hts) d true, fun on => ?_⟩
    rw [put_comm (Ne.symm hts)]
    refine turnOn_eq_ok_iff.2 ⟨?_, ?_, rfl⟩
    · rw [isOn_put_of_ne hts, hoff]
    · rw [put_comm hts, isOn_put_of_ne hts, hmarks]

theorem giveRomPath_put (d : Draft) (on : Bool) (s : Switch) (value : String) :
    (d.put on s).giveRomPath value = (d.giveRomPath value).map fun d => d.put on s := by
  unfold giveRomPath
  rw [apply_ite (Option.map _)]
  cases s <;> rfl

theorem givePolicy_put (d : Draft) (on : Bool) (s : Switch) (value : String) :
    (d.put on s).givePolicy value = (d.givePolicy value).map fun d => d.put on s := by
  unfold givePolicy
  rw [apply_ite (Option.map _), Option.map_map]
  cases s <;> rfl

theorem giveBrk_put (d : Draft) (on : Bool) (s : Switch) (value : String) :
    (d.put on s).giveBrk value = (d.giveBrk value).map fun d => d.put on s := by
  unfold giveBrk
  rw [apply_ite (Option.map _), Option.map_map]
  cases s <;> rfl

theorem giveMaxSteps_put (d : Draft) (on : Bool) (s : Switch) (value : String) :
    (d.put on s).giveMaxSteps value = (d.giveMaxSteps value).map fun d => d.put on s := by
  unfold giveMaxSteps
  rw [apply_ite (Option.map _), Option.map_map]
  cases s <;> rfl

/-- A setting has nothing to do with the switches. -/
theorem give_put (d : Draft) (on : Bool) (s : Switch) (setting : Setting) (value : String) :
    (d.put on s).give setting value = (d.give setting value).map fun d => d.put on s := by
  unfold give
  cases setting with
  | romPath =>
    dsimp only
    rw [giveRomPath_put]
    cases d.giveRomPath value <;> rfl
  | policy =>
    dsimp only
    rw [givePolicy_put]
    cases d.givePolicy value <;> rfl
  | brk =>
    dsimp only
    rw [giveBrk_put]
    cases d.giveBrk value <;> rfl
  | maxSteps =>
    dsimp only
    rw [giveMaxSteps_put]
    cases d.giveMaxSteps value <;> rfl

theorem give_put_of_ok {setting : Setting} {value : String} (h : d.give setting value = .ok d₁)
    (on : Bool) (s : Switch) : (d.put on s).give setting value = .ok (d₁.put on s) := by
  rw [give_put, h]
  rfl

theorem isOn_of_give {setting : Setting} {value : String} (h : d.give setting value = .ok d₁)
    (s : Switch) : d₁.isOn s = d.isOn s := by
  have hput := give_put_of_ok h (d.isOn s) s
  rw [put_of_isOn rfl, h] at hput
  rw [Except.ok.inj hput]
  cases s <;> rfl

theorem one_le_of_stepsOfText {text : List Char} {n : Nat} (h : stepsOfText text = some n) :
    1 ≤ n := by
  have key (digits : List Char) (hdigits : (if digits.isEmpty then none
      else (digitsValue 0 digits).filter fun n => 1 ≤ n ∧ n ≤ stepLimit) = some n) : 1 ≤ n := by
    split at hdigits
    · cases hdigits
    · rw [Option.filter_eq_some_iff] at hdigits
      exact (of_decide_eq_true hdigits.2).1
  exact key _ h

theorem limited_of_give {setting : Setting} {value : String} (h : d.give setting value = .ok d₁)
    (hd : d.Limited) : d₁.Limited := by
  unfold give at h
  dsimp only at h
  split at h
  · next hgiven =>
    cases h
    cases setting with
    | romPath =>
      obtain ⟨-, rfl⟩ : _ ∧ _ := by simpa [giveRomPath] using hgiven
      exact hd
    | policy =>
      obtain ⟨-, policy, -, rfl⟩ : _ ∧ _ := by simpa [givePolicy] using hgiven
      exact hd
    | brk =>
      obtain ⟨-, brk, -, rfl⟩ : _ ∧ _ := by simpa [giveBrk] using hgiven
      exact hd
    | maxSteps =>
      obtain ⟨-, n, hn, rfl⟩ : _ ∧ _ := by simpa [giveMaxSteps] using hgiven
      rintro _ ⟨⟩
      exact one_le_of_stepsOfText hn
  · cases h

/-- Letters are switches. -/
theorem turnOnLetters_eq_ok {letters : List Char} (h : d.turnOnLetters letters = .ok d₁)
    (s : Switch) :
    d₁.maxSteps = d.maxSteps ∧ (d.isOn s = true → d₁.isOn s = true) ∧
      (d₁.isOn s = d.isOn s → ∀ on,
        (d.put on s).turnOnLetters letters = .ok (d₁.put on s)) := by
  induction letters generalizing d with
  | nil =>
    cases h
    exact ⟨rfl, id, fun _ _ => rfl⟩
  | cons c rest ih =>
    unfold turnOnLetters at h ⊢
    cases hc : Switch.ofLetter c with
    | none =>
      rw [hc] at h
      cases h
    | some switch =>
      rw [hc] at h
      dsimp only at h ⊢
      cases hswitch : d.turnOn switch with
      | error request =>
        rw [hswitch] at h
        cases h
      | ok d₂ =>
        rw [hswitch] at h
        obtain ⟨hsteps, hstays, hrest⟩ := ih h
        obtain ⟨hsteps', ⟨-, hoff, hon, -⟩ | ⟨-, hsame, hput⟩⟩ := turnOn_eq_ok hswitch s
        · refine ⟨hsteps.trans hsteps', fun _ => hstays hon, fun heq => ?_⟩
          rw [hstays hon, hoff] at heq
          cases heq
        · refine ⟨hsteps.trans hsteps', fun hon => hstays (hsame.trans hon), fun heq on => ?_⟩
          rw [hput on]
          exact hrest (heq.trans hsame.symm) on

/-! ## Whole lines -/

theorem Reads.limited (h : Reads d words d') (hd : d.Limited) : d'.Limited := by
  induction h with
  | nil | dashes => exact hd
  | attached _ _ _ hgive _ ih => exact ih (limited_of_give hgive hd)
  | separate _ _ _ _ hgive _ ih => exact ih (limited_of_give hgive hd)
  | switch _ _ _ hturnOn _ ih =>
    refine ih ?_
    unfold Limited
    rw [(turnOn_eq_ok hturnOn .trace).1]
    exact hd
  | letters _ _ hturnOn _ ih =>
    refine ih ?_
    unfold Limited
    rw [(turnOnLetters_eq_ok hturnOn .trace).1]
    exact hd

/-- A switch that is on stays on. -/
theorem Reads.stays_on (h : Reads d words d') (hon : d.isOn s = true) : d'.isOn s = true := by
  induction h with
  | nil | dashes => exact hon
  | attached _ _ _ hgive _ ih => exact ih ((isOn_of_give hgive s).trans hon)
  | separate _ _ _ _ hgive _ ih => exact ih ((isOn_of_give hgive s).trans hon)
  | switch _ _ _ hturnOn _ ih =>
    obtain ⟨-, ⟨-, -, hon', -⟩ | ⟨-, hsame, -⟩⟩ := turnOn_eq_ok hturnOn s
    · exact ih hon'
    · exact ih (hsame.trans hon)
  | letters _ _ hturnOn _ ih => exact ih ((turnOnLetters_eq_ok hturnOn s).2.1 hon)

end Draft

/-- The word of a switch. -/
def Switch.word : Switch → String
  | .trace => "--trace"
  | .colour => "--color"
  | .debug => "--debug"
  | .help => "--help"
  | .version => "--version"

theorem Switch.exists_long (s : Switch) : ∃ long, s.word.toList = '-' :: '-' :: long ∧
    long ≠ [] ∧ Draft.longOption long = .switch s := by
  cases s with
  | trace => exact ⟨['t', 'r', 'a', 'c', 'e'], by decide +kernel, nofun, rfl⟩
  | colour => exact ⟨['c', 'o', 'l', 'o', 'r'], by decide +kernel, nofun, rfl⟩
  | debug => exact ⟨['d', 'e', 'b', 'u', 'g'], by decide +kernel, nofun, rfl⟩
  | help => exact ⟨['h', 'e', 'l', 'p'], by decide +kernel, nofun, rfl⟩
  | version => exact ⟨['v', 'e', 'r', 's', 'i', 'o', 'n'], by decide +kernel, nofun, rfl⟩

namespace Draft

variable {d d₁ d' : Draft} {words : List String} {s t : Switch} {word : String}

theorem word_ne_of_dashes (hword : word.toList = ['-', '-']) (s : Switch) : s.word ≠ word := by
  rintro rfl
  obtain ⟨long, hlong, hne, -⟩ := s.exists_long
  rw [hlong] at hword
  cases hword
  exact hne rfl

theorem word_ne_of_letters {first : Char} {letters : List Char}
    (hword : word.toList = '-' :: first :: letters) (hfirst : first ≠ '-') (s : Switch) :
    s.word ≠ word := by
  rintro rfl
  obtain ⟨long, hlong, -, -⟩ := s.exists_long
  rw [hlong] at hword
  cases hword
  exact hfirst rfl

theorem word_ne_of_option {long : List Char} (hword : word.toList = '-' :: '-' :: long)
    (hoption : longOption long ≠ .switch s) : s.word ≠ word := by
  rintro rfl
  obtain ⟨long', hlong, -, hswitch⟩ := s.exists_long
  rw [hlong] at hword
  cases hword
  exact hoption hswitch

theorem word_ne_of_isValue {value : String} (hvalue : isValue value = true) (s : Switch) :
    s.word ≠ value := by
  rintro rfl
  obtain ⟨long, hlong, -, -⟩ := s.exists_long
  unfold isValue at hvalue
  rw [hlong] at hvalue
  cases hvalue

/-- What a line leaves alone can be put in front of it, and the line does not have its word. -/
theorem Reads.put (h : Reads d words d') (hsame : d'.isOn s = d.isOn s) :
    s.word ∉ words ∧ ∀ on, Reads (d.put on s) words (d'.put on s) := by
  induction h with
  | nil => exact ⟨List.not_mem_nil, fun _ => .nil _⟩
  | dashes hword =>
    exact ⟨List.not_mem_cons_of_ne_of_not_mem (word_ne_of_dashes hword s) List.not_mem_nil,
      fun _ => .dashes hword⟩
  | attached hword hlong hoption hgive rest ih =>
    obtain ⟨hmem, hrest⟩ := ih (hsame.trans (isOn_of_give hgive s).symm)
    have hne := word_ne_of_option hword (s := s) (hoption ▸ nofun)
    exact ⟨List.not_mem_cons_of_ne_of_not_mem hne hmem, fun on =>
      .attached hword hlong hoption (give_put_of_ok hgive on s) (hrest on)⟩
  | separate hword hlong hoption hvalue hgive rest ih =>
    obtain ⟨hmem, hrest⟩ := ih (hsame.trans (isOn_of_give hgive s).symm)
    have hne := word_ne_of_option hword (s := s) (hoption ▸ nofun)
    exact ⟨List.not_mem_cons_of_ne_of_not_mem hne
        (List.not_mem_cons_of_ne_of_not_mem (word_ne_of_isValue hvalue s) hmem), fun on =>
      .separate hword hlong hoption hvalue (give_put_of_ok hgive on s) (hrest on)⟩
  | switch hword hlong hoption hturnOn rest ih =>
    obtain ⟨-, ⟨-, hoff, hon, -⟩ | ⟨hother, hkept, hput⟩⟩ := turnOn_eq_ok hturnOn s
    · rw [hoff, rest.stays_on hon] at hsame
      cases hsame
    · obtain ⟨hmem, hrest⟩ := ih (hsame.trans hkept.symm)
      have hne := word_ne_of_option hword fun heq => hother (by
        rw [hoption] at heq
        exact LongOption.switch.inj heq)
      exact ⟨List.not_mem_cons_of_ne_of_not_mem hne hmem, fun on =>
        .switch hword hlong hoption (hput on) (hrest on)⟩
  | @letters d d₁ d' _ _ _ _ hword hfirst hturnOn rest ih =>
    obtain ⟨-, hstays, hput⟩ := turnOnLetters_eq_ok hturnOn s
    have hkept : d₁.isOn s = d.isOn s := by
      cases hon : d.isOn s with
      | true => exact hstays hon
      | false =>
        rw [hon] at hsame
        exact Bool.eq_false_iff.2 fun hon' => Bool.eq_false_iff.1 hsame (rest.stays_on hon')
    obtain ⟨hmem, hrest⟩ := ih (hsame.trans hkept.symm)
    exact ⟨List.not_mem_cons_of_ne_of_not_mem (word_ne_of_letters hword hfirst s) hmem, fun on =>
      .letters hword hfirst (hput hkept on) (hrest on)⟩

theorem mem_and_erase_of_ne (h : s.word ≠ word) (hmem : s.word ∈ word :: words) :
    s.word ∈ words ∧ (word :: words).erase s.word = word :: words.erase s.word := by
  refine ⟨(List.mem_cons.1 hmem).resolve_left h, List.erase_cons_tail ?_⟩
  simpa using h.symm

/-- A line with the word of a switch turns it on and reads the same without the word, but for the
switch. -/
theorem Reads.erase (h : Reads d words d') (hmem : s.word ∈ words) :
    d.isOn s = false ∧ d'.isOn s = true ∧ Reads d (words.erase s.word) (d'.put false s) := by
  induction h with
  | nil => cases hmem
  | dashes hword =>
    obtain ⟨hmem, -⟩ := mem_and_erase_of_ne (word_ne_of_dashes hword s) hmem
    cases hmem
  | attached hword hlong hoption hgive rest ih =>
    obtain ⟨hmem, herase⟩ := mem_and_erase_of_ne (word_ne_of_option hword (hoption ▸ nofun)) hmem
    obtain ⟨hoff, hon, hrest⟩ := ih hmem
    rw [herase]
    exact ⟨(isOn_of_give hgive s).symm.trans hoff, hon, .attached hword hlong hoption hgive hrest⟩
  | separate hword hlong hoption hvalue hgive rest ih =>
    obtain ⟨hmem, herase⟩ := mem_and_erase_of_ne (word_ne_of_option hword (hoption ▸ nofun)) hmem
    obtain ⟨hmem, herase'⟩ := mem_and_erase_of_ne (word_ne_of_isValue hvalue s) hmem
    obtain ⟨hoff, hon, hrest⟩ := ih hmem
    rw [herase, herase']
    exact ⟨(isOn_of_give hgive s).symm.trans hoff, hon,
      .separate hword hlong hoption hvalue hgive hrest⟩
  | switch hword hlong hoption hturnOn rest ih =>
    obtain ⟨-, ⟨-, hoff, hon, hback⟩ | ⟨hother, hkept, -⟩⟩ := turnOn_eq_ok hturnOn s
    · -- The words behind this one do not hold the word of the switch, so this is it.
      obtain ⟨hnot, hrest⟩ := rest.put ((rest.stays_on hon).trans hon.symm)
      have hword := (List.mem_cons.1 hmem).resolve_right hnot
      rw [← hword, List.erase_cons_head]
      exact ⟨hoff, rest.stays_on hon, hback ▸ hrest false⟩
    · have hne := word_ne_of_option hword fun heq => hother (by
        rw [hoption] at heq
        exact LongOption.switch.inj heq)
      obtain ⟨hmem, herase⟩ := mem_and_erase_of_ne hne hmem
      obtain ⟨hoff, hon, hrest⟩ := ih hmem
      rw [herase]
      exact ⟨hkept.symm.trans hoff, hon, .switch hword hlong hoption hturnOn hrest⟩
  | letters hword hfirst hturnOn rest ih =>
    obtain ⟨hmem, herase⟩ := mem_and_erase_of_ne (word_ne_of_letters hword hfirst s) hmem
    obtain ⟨hoff, hon, hrest⟩ := ih hmem
    obtain ⟨-, hstays, -⟩ := turnOnLetters_eq_ok hturnOn s
    rw [herase]
    exact ⟨Bool.eq_false_iff.2 fun hon' => Bool.eq_false_iff.1 hoff (hstays hon'), hon,
      .letters hword hfirst hturnOn hrest⟩

/-- What a finished draft asks for, and what it asks for with a trace or colour of another kind. -/
theorem finish_eq_run {options : Options} (h : d.finish = .run options) :
    options.maxSteps = d.maxSteps ∧ options.colour = d.colour ∧
      (options.colour = true → options.trace = true) ∧
      (options.colour = false → ∀ on,
        (d.put on .trace).finish = .run { options with trace := on }) ∧
      (options.trace = true → ∀ on,
        (d.put on .colour).finish = .run { options with colour := on }) := by
  unfold finish at h
  cases hpath : d.romPath with
  | none =>
    rw [hpath] at h
    cases h
  | some path =>
    rw [hpath] at h
    dsimp only at h
    split at h
    · cases h
    · next hfits =>
      cases h
      refine ⟨rfl, rfl, fun hcolour => ?_, fun hcolour on => ?_, fun htrace on => ?_⟩
      · have hcolour : d.colour = true := hcolour
        simpa [hcolour] using hfits
      · have hcolour : d.colour = false := hcolour
        simp [finish, Draft.put, hpath, hcolour]
      · have htrace : d.trace = true := htrace
        simp [finish, Draft.put, hpath, htrace]

end Draft

variable {arguments : List String} {options : Options}

theorem exists_reads (h : Request.ofArguments arguments = .run options) :
    ∃ d, Draft.Reads {} arguments d ∧ d.finish = .run options := by
  unfold Request.ofArguments at h
  cases hread : ({} : Draft).read arguments with
  | error request =>
    rw [hread] at h
    have hrun : request = .run options := h
    exact absurd (hrun ▸ hread) (Draft.read_ne_run arguments)
  | ok d =>
    rw [hread] at h
    exact ⟨d, Draft.read_eq_ok_iff.1 hread, h⟩

theorem ofArguments_of_reads {d : Draft} (h : Draft.Reads {} arguments d) :
    Request.ofArguments arguments = d.finish := by
  unfold Request.ofArguments
  rw [Draft.read_eq_ok_iff.2 h]

/-- A limit on the steps is at least one. -/
theorem one_le_of_ofArguments (h : Request.ofArguments arguments = .run options) :
    ∀ n ∈ options.maxSteps, 1 ≤ n := by
  obtain ⟨d, hreads, hfinish⟩ := exists_reads h
  rw [(Draft.finish_eq_run hfinish).1]
  exact hreads.limited nofun

/-- A line with the word of the trace asks for the same without it, but for the trace. -/
theorem ofArguments_erase_trace (h : Request.ofArguments arguments = .run options)
    (hcolour : options.colour = false) (hmem : "--trace" ∈ arguments) :
    Request.ofArguments (arguments.erase "--trace") =
      .run { options with trace := false } := by
  obtain ⟨d, hreads, hfinish⟩ := exists_reads h
  obtain ⟨-, -, hrest⟩ := hreads.erase (s := .trace) hmem
  obtain ⟨-, -, -, htrace, -⟩ := Draft.finish_eq_run hfinish
  exact (ofArguments_of_reads hrest).trans (htrace hcolour false)

/-- A line with the word of the colour asks for colour, and without it for the same in plain. -/
theorem ofArguments_erase_colour (h : Request.ofArguments arguments = .run options)
    (hmem : "--color" ∈ arguments) :
    options.colour = true ∧ Request.ofArguments (arguments.erase "--color") =
      .run { options with colour := false } := by
  obtain ⟨d, hreads, hfinish⟩ := exists_reads h
  obtain ⟨-, hon, hrest⟩ := hreads.erase (s := .colour) hmem
  obtain ⟨-, hsame, htrace, -, hcolour⟩ := Draft.finish_eq_run hfinish
  have hon := hsame.trans hon
  exact ⟨hon, (ofArguments_of_reads hrest).trans (hcolour (htrace hon) false)⟩

/-- The word of the colour in front of a line for a plain trace asks for the same in colour. -/
theorem ofArguments_cons_colour (h : Request.ofArguments arguments = .run options)
    (htrace : options.trace = true) (hplain : options.colour = false) :
    Request.ofArguments ("--color" :: arguments) = .run { options with colour := true } := by
  obtain ⟨d, hreads, hfinish⟩ := exists_reads h
  obtain ⟨-, hsame, -, -, hcolour⟩ := Draft.finish_eq_run hfinish
  obtain ⟨-, hput⟩ := hreads.put (s := .colour) (hsame.symm.trans hplain)
  obtain ⟨long, hlong, hne, hoption⟩ := Switch.colour.exists_long
  have hline : Draft.Reads {} ("--color" :: arguments) (d.put true .colour) :=
    .switch hlong hne hoption rfl (hput true)
  exact (ofArguments_of_reads hline).trans (hcolour htrace true)

end NesCore.CommandLine
