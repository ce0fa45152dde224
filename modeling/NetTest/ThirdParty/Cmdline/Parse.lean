import NetTest.ThirdParty.Cmdline.Items

/-!
# Command lines that are accepted

`parse` succeeds on exactly the command lines that are spelled out by items the parser
allows, and does what the items say, one after the other.
-/

namespace NetTest.Cmdline

open AssocList (keys)

variable {V : Type*}

/-! ## Short names -/

theorem lookup_isSome_iff (c : UInt8) (shorts : List (UInt8 × Str)) :
    (shorts.lookup c).isSome ↔ c ∈ keys shorts := by
  rw [List.lookup_isSome_iff, keys, List.mem_map]
  constructor
  · rintro ⟨e, he, heq⟩
    exact ⟨e, he, (beq_iff_eq.mp heq).symm⟩
  · rintro ⟨e, he, rfl⟩
    exact ⟨e, he, beq_self_eq_true _⟩

/-- The names are gathered unless two options share a short name. -/
theorem makeLookup_iff (options : List (Str × Opt V)) (acc : List (UInt8 × Str))
    (hacc : (keys acc).Nodup) (l : List (UInt8 × Str)) :
    makeLookup acc options = .ok l ↔
      (keys (acc ++ shortNames options)).Nodup ∧ l = acc ++ shortNames options := by
  induction options generalizing acc with
  | nil =>
      rw [makeLookup]
      simp [shortNames, hacc, eq_comm]
  | cons e rest ih =>
      rcases e with ⟨name, o⟩
      rw [makeLookup]
      by_cases hname : name = []
      · have hskip : shortNames ((name, o) :: rest) = shortNames rest := by
          simp [shortNames, hname]
        rw [if_pos hname, hskip]
        exact ih acc hacc
      rw [if_neg hname]
      by_cases hshort : o.shortName = 0
      · have hskip : shortNames ((name, o) :: rest) = shortNames rest := by
          simp [shortNames, hshort]
        rw [if_pos hshort, hskip]
        exact ih acc hacc
      have hnext : shortNames ((name, o) :: rest) = (o.shortName, name) :: shortNames rest := by
        simp [shortNames, hname, hshort]
      rw [if_neg hshort, hnext]
      have hkeys : keys (acc ++ [(o.shortName, name)]) = keys acc ++ [o.shortName] := by
        simp [keys]
      by_cases htaken : (acc.lookup o.shortName).isSome
      · have hmem := (lookup_isSome_iff o.shortName acc).mp htaken
        rw [if_pos htaken]
        refine iff_of_false (by simp) ?_
        rintro ⟨hnodup, _⟩
        rw [keys, List.map_append, List.nodup_append] at hnodup
        exact hnodup.2.2 _ hmem o.shortName (by simp) rfl
      · have hfresh : o.shortName ∉ keys acc := fun hmem =>
          htaken ((lookup_isSome_iff o.shortName acc).mpr hmem)
        rw [if_neg htaken, ih (acc ++ [(o.shortName, name)])]
        · simp
        · rw [hkeys, ← List.concat_eq_append]
          exact hacc.concat hfresh

theorem Parser.shorts_ne_nil {p : Parser V} {c : UInt8} {name : Str}
    (h : p.shorts.lookup c = some name) : name ≠ [] := by
  have hmem := AssocList.mem_of_lookup h
  rw [Parser.shorts, shortNames, List.mem_map] at hmem
  rcases hmem with ⟨e, he, heq⟩
  have hkept := (List.mem_filter.mp he).2
  simp only [ne_eq, decide_not, Bool.decide_and, Bool.and_eq_true, Bool.not_eq_true',
    decide_eq_false_iff_not] at hkept
  rw [← (Prod.mk.inj heq).2]
  exact hkept.1

/-! ## One argument -/

theorem Opt.hasValue_eq (o : Opt V) : o.hasValue = o.reader.isSome := by
  unfold Opt.hasValue Opt.reader
  cases o.kind <;> rfl

namespace Parser

section Short

variable {r : Parser V} {c : UInt8} {name : Str}

theorem readShort_of_lookup (p : Parser V) (h : r.shorts.lookup c = some name) :
    p.readShort r.shorts c = p.setTo (name, none) := by
  simp only [readShort, h, if_neg (shorts_ne_nil h)]
  rfl

theorem readShort_of_none (p : Parser V) (h : r.shorts.lookup c = none) :
    p.readShort r.shorts c = p.fail (ascii "undefined short option: -" ++ [c]) := by
  simp only [readShort, h]

theorem onward_readShort (p : Parser V) (c : UInt8) :
    Onward p (p.readShort r.shorts c) := by
  cases h : r.shorts.lookup c with
  | none =>
      rw [readShort_of_none p h]
      exact onward_fail p _
  | some name =>
      rw [readShort_of_lookup p h]
      exact onward_setTo p _

theorem onward_readShorts (flags : List UInt8) (p : Parser V) :
    Onward p (flags.foldl (readShort r.shorts) p) := by
  induction flags generalizing p with
  | nil => exact .refl p
  | cons c rest ih => exact (onward_readShort p c).trans (ih _)

theorem readShorts_eq {flags : List UInt8} (p : Parser V)
    (h : ∀ c ∈ flags, (r.shorts.lookup c).isSome) :
    flags.foldl (readShort r.shorts) p =
      (flags.map fun c => ((r.shorts.lookup c).getD [], none)).foldl setTo p := by
  induction flags generalizing p with
  | nil => rfl
  | cons c rest ih =>
      rw [List.forall_mem_cons] at h
      rcases Option.isSome_iff_exists.mp h.1 with ⟨name, hname⟩
      rw [List.foldl_cons, List.map_cons, List.foldl_cons, readShort_of_lookup p hname, hname]
      exact ih _ h.2

theorem readShorts_known {flags : List UInt8} (p : Parser V)
    (h : (flags.foldl (readShort r.shorts) p).errors = p.errors) :
    ∀ c ∈ flags, (r.shorts.lookup c).isSome := by
  induction flags generalizing p with
  | nil => simp
  | cons c rest ih =>
      have hsqueeze := (onward_readShort p c).squeeze (onward_readShorts rest _) h
      rw [List.forall_mem_cons]
      constructor
      · cases hname : r.shorts.lookup c with
        | some name => rfl
        | none =>
            have hfail := hsqueeze.1
            rw [readShort_of_none p hname] at hfail
            exact absurd hfail (fail_errors_ne p _)
      · exact ih _ hsqueeze.2

/-- The last flag of an argument. -/
theorem readLastShort_cases (p : Parser V) (c : UInt8) (following : Option Str) :
    (r.shorts.lookup c = none ∧
        ∃ error, p.readLastShort r.shorts c following = (p.fail error, false)) ∨
      ∃ name, r.shorts.lookup c = some name ∧
        ((following = none ∨ (p.options.lookup name).any Opt.hasValue = false) ∧
            p.readLastShort r.shorts c following = (p.setTo (name, none), false) ∨
          ∃ value, following = some value ∧ (p.options.lookup name).any Opt.hasValue = true ∧
            p.readLastShort r.shorts c following =
              (p.setTo (name, some value), true)) := by
  cases h : r.shorts.lookup c with
  | none =>
      left
      simp only [readLastShort, h]
      exact ⟨trivial, _, rfl⟩
  | some name =>
      right
      refine ⟨name, rfl, ?_⟩
      simp only [readLastShort, h, if_neg (shorts_ne_nil h)]
      cases following with
      | none => exact .inl ⟨.inl rfl, rfl⟩
      | some value =>
          cases hvalue : (p.options.lookup name).any Opt.hasValue with
          | false => exact .inl ⟨.inr rfl, rfl⟩
          | true => exact .inr ⟨value, rfl, rfl, rfl⟩

theorem onward_readLastShort (p : Parser V) (c : UInt8) (following : Option Str) :
    Onward p (p.readLastShort r.shorts c following).1 := by
  rcases readLastShort_cases (r := r) p c following with
    ⟨_, error, heq⟩ | ⟨name, _, ⟨_, heq⟩ | ⟨value, _, _, heq⟩⟩
  · rw [heq]
    exact onward_fail p error
  · rw [heq]
    exact onward_setTo p (name, none)
  · rw [heq]
    exact onward_setTo p (name, some value)

end Short

/-! ## Long options -/

theorem cut_append_equals {body : Str} (h : equals ∈ body) :
    body.takeWhile (· ≠ equals) ++ equals :: (body.dropWhile (· ≠ equals)).tail = body := by
  induction body with
  | nil => cases h
  | cons c rest ih =>
      by_cases hc : c = equals
      · simp [hc]
      · have hrest : equals ∈ rest := (List.mem_cons.mp h).resolve_left (Ne.symm hc)
        simpa [hc] using ih hrest

theorem readLong_equals (p : Parser V) {name : Str} (h : equals ∉ name) (value : Str)
    (following : Option Str) :
    p.readLong (name ++ equals :: value) following = (p.setTo (name, some value), false) := by
  have hkept : ∀ c ∈ name, decide (c ≠ equals) = true := by
    intro c hc
    exact decide_eq_true fun heq => h (heq ▸ hc)
  rw [readLong.eq_def, if_pos (by simp), List.takeWhile_append_of_pos hkept,
    List.dropWhile_append_of_pos hkept]
  simp [setTo]

theorem readLong_cases (p : Parser V) (body : Str) (following : Option Str) :
    (∃ error, p.readLong body following = (p.fail error, false)) ∨
      (∃ name value, body = name ++ equals :: value ∧ equals ∉ name ∧
        p.readLong body following = (p.setTo (name, some value), false)) ∨
      (equals ∉ body ∧ p.readLong body following = (p.setTo (body, none), false)) ∨
      (equals ∉ body ∧ ∃ value, following = some value ∧
        p.readLong body following = (p.setTo (body, some value), true)) := by
  by_cases heq : equals ∈ body
  · right; left
    have hcut := cut_append_equals heq
    have hname : equals ∉ body.takeWhile (· ≠ equals) := by
      intro hmem
      simpa using List.mem_takeWhile_imp hmem
    refine ⟨body.takeWhile (· ≠ equals), (body.dropWhile (· ≠ equals)).tail, hcut.symm, hname, ?_⟩
    rw [← readLong_equals p hname _ following, hcut]
  · cases ho : p.options.lookup body with
    | none =>
        left
        simp only [readLong, if_neg heq, ho]
        exact ⟨_, rfl⟩
    | some o =>
        cases hvalue : o.hasValue with
        | false =>
            right; right; left
            simp only [readLong, if_neg heq, ho, hvalue]
            exact ⟨heq, rfl⟩
        | true =>
            cases following with
            | none =>
                left
                simp only [readLong, if_neg heq, ho, hvalue, if_true]
                exact ⟨_, rfl⟩
            | some value =>
                right; right; right
                simp only [readLong, if_neg heq, ho, hvalue, if_true]
                exact ⟨heq, value, rfl, rfl⟩

theorem onward_readArg (p r : Parser V) (arg : Str) (following : Option Str) :
    Onward p (p.readArg r.shorts arg following).1 := by
  match arg with
  | [] => exact onward_others p _
  | [c] =>
      rw [readArg]
      split
      · exact .refl p
      · exact onward_others p _
  | c :: d :: body =>
      rw [readArg]
      split
      · split
        · rcases readLong_cases p body following with
            ⟨error, heq⟩ | ⟨name, value, _, _, heq⟩ | ⟨_, heq⟩ | ⟨_, value, _, heq⟩
          · rw [heq]
            exact onward_fail p error
          · rw [heq]
            exact onward_setTo p (name, some value)
          · rw [heq]
            exact onward_setTo p (body, none)
          · rw [heq]
            exact onward_setTo p (body, some value)
        · exact (onward_readShorts _ p).trans (onward_readLastShort _ _ _)
      · exact onward_others p _

/-! ## Arguments -/

theorem allows_of_quiet {p : Parser V} {item : Item} (hclear : item.Clear)
    (hletters : ∀ c ∈ item.letters, (p.shorts.lookup c).isSome)
    (hquiet : (p.apply item).errors = p.errors) : p.Allows item :=
  ⟨hclear, hletters, (apply_quiet_iff p item).mp hquiet⟩

/-- What one argument was read as. -/
def Reads (p : Parser V) (arg : Str) (following : Option Str) (r : Parser V × Bool) : Prop :=
  ∃ item : Item, p.Allows item ∧ r.1 = p.apply item ∧
    (r.2 = false ∧ item.words = [arg] ∨
      r.2 = true ∧ ∃ value, following = some value ∧ item.words = [arg, value])

theorem reads_rest (p : Parser V) {arg : Str} (h : arg.head? ≠ some dash)
    (following : Option Str) :
    p.Reads arg following ({ p with others := p.others ++ [arg] }, false) :=
  ⟨.rest arg, ⟨h, by simp [Item.letters], by simp [Item.settings]⟩, rfl, .inl ⟨rfl, rfl⟩⟩

theorem reads_long (p : Parser V) (body : Str) (following : Option Str)
    (h : (p.readLong body following).1.errors = p.errors) :
    p.Reads (dash :: dash :: body) following (p.readLong body following) := by
  rcases readLong_cases p body following with
    ⟨error, heq⟩ | ⟨name, value, rfl, hname, heq⟩ | ⟨hbody, heq⟩ | ⟨hbody, value, hfollow, heq⟩
  · rw [heq] at h
    exact absurd h (fail_errors_ne p error)
  · rw [heq] at h ⊢
    have happly : p.apply (.longEq name value) = p.setTo (name, some value) := apply_eq_setAll rfl
    refine ⟨.longEq name value, allows_of_quiet hname (by simp [Item.letters]) ?_, happly.symm,
      .inl ⟨rfl, rfl⟩⟩
    rw [happly]
    exact h
  · rw [heq] at h ⊢
    have happly : p.apply (.long body) = p.setTo (body, none) := apply_eq_setAll rfl
    refine ⟨.long body, allows_of_quiet hbody (by simp [Item.letters]) ?_, happly.symm,
      .inl ⟨rfl, rfl⟩⟩
    rw [happly]
    exact h
  · rw [heq] at h ⊢
    have happly : p.apply (.longSep body value) = p.setTo (body, some value) := apply_eq_setAll rfl
    refine ⟨.longSep body value, allows_of_quiet hbody (by simp [Item.letters]) ?_, happly.symm,
      .inr ⟨rfl, value, hfollow, rfl⟩⟩
    rw [happly]
    exact h

theorem reads_short (p : Parser V) (flags : List UInt8) (last : UInt8) (following : Option Str)
    (hhead : (flags ++ [last]).head? ≠ some dash)
    (h : ((flags.foldl (readShort p.shorts) p).readLastShort p.shorts last following).1.errors =
      p.errors) :
    p.Reads (dash :: (flags ++ [last])) following
      ((flags.foldl (readShort p.shorts) p).readLastShort p.shorts last following) := by
  have hsqueeze := (onward_readShorts flags p).squeeze
    (onward_readLastShort _ last following) h
  have hknown := readShorts_known p hsqueeze.1
  have hflags := readShorts_eq p hknown
  rcases readLastShort_cases (r := p) (flags.foldl (readShort p.shorts) p) last following with
    ⟨_, error, heq⟩ | ⟨name, hname, htook⟩
  · have hlast := hsqueeze.2
    rw [heq] at hlast
    exact absurd hlast (fail_errors_ne _ error)
  have hletters : ∀ c ∈ flags ++ [last], (p.shorts.lookup c).isSome := by
    rw [List.forall_mem_append, List.forall_mem_singleton, hname]
    exact ⟨hknown, rfl⟩
  rcases htook with ⟨_, heq⟩ | ⟨value, hfollow, _, heq⟩
  · have happly : p.apply (.short flags last) =
        (flags.foldl (readShort p.shorts) p).setTo (name, none) := by
      rw [apply_eq_setAll rfl, hflags, Item.settings, List.map_append, List.foldl_append]
      simp [hname]
    rw [heq] at h ⊢
    refine ⟨.short flags last, allows_of_quiet hhead hletters ?_, happly.symm, .inl ⟨rfl, rfl⟩⟩
    rw [happly]
    exact h
  · have happly : p.apply (.shortSep flags last value) =
        (flags.foldl (readShort p.shorts) p).setTo (name, some value) := by
      rw [apply_eq_setAll rfl, hflags, Item.settings, List.foldl_append]
      simp [hname]
    rw [heq] at h ⊢
    refine ⟨.shortSep flags last value, allows_of_quiet hhead hletters ?_, happly.symm,
      .inr ⟨rfl, value, hfollow, rfl⟩⟩
    rw [happly]
    exact h

/-- An argument that leaves no error is the writing of an item, alone or with the
argument that it takes. -/
theorem readArg_reads (p : Parser V) (arg : Str) (following : Option Str)
    (h : (p.readArg p.shorts arg following).1.errors = p.errors) :
    p.Reads arg following (p.readArg p.shorts arg following) := by
  match arg with
  | [] => exact reads_rest p (by simp) following
  | [c] =>
      rw [readArg]
      split
      · rename_i hc
        have happly : p.apply .dash = p := apply_eq_setAll rfl
        rw [hc]
        exact ⟨.dash, ⟨trivial, by simp [Item.letters], by simp [Item.settings]⟩, happly.symm,
          .inl ⟨rfl, rfl⟩⟩
      · rename_i hc
        exact reads_rest p (by simpa using hc) following
  | c :: d :: body =>
      rw [readArg] at h ⊢
      by_cases hc : c = dash
      · rw [if_pos hc] at h ⊢
        by_cases hd : d = dash
        · rw [if_pos hd] at h ⊢
          rw [hc, hd]
          exact reads_long p body following h
        · rw [if_neg hd] at h ⊢
          have hword := List.dropLast_append_getLast (l := d :: body) (by simp)
          have hhead : ((d :: body).dropLast ++ [(d :: body).getLast (by simp)]).head? ≠
              some dash := by
            rw [hword]
            simpa using hd
          have hreads := reads_short p _ _ following hhead h
          rw [hword, ← hc] at hreads
          exact hreads
      · rw [if_neg hc]
        exact reads_rest p (by simpa using hc) following

theorem hasValue_of_accepts {p : Parser V} {name : Str} {value : Option Str}
    (h : p.Accepts (name, value)) :
    ∃ o, p.options.lookup name = some o ∧ o.hasValue = value.isSome := by
  cases value with
  | none =>
      rcases h with ⟨o, ho, hreader⟩
      exact ⟨o, ho, by rw [Opt.hasValue_eq, hreader]; rfl⟩
  | some value =>
      rcases h with ⟨o, read, v, ho, hreader, _⟩
      exact ⟨o, ho, by rw [Opt.hasValue_eq, hreader]; rfl⟩

theorem readShort_flags (p : Parser V) {flags : List UInt8} {last : UInt8}
    (h : ∀ c ∈ flags ++ [last], (p.shorts.lookup c).isSome) (body : UInt8 × Str)
    (hbody : flags ++ [last] = body.1 :: body.2) (hhead : body.1 ≠ dash)
    (following : Option Str) :
    p.readArg p.shorts (dash :: (flags ++ [last])) following =
      ((flags.map fun c => ((p.shorts.lookup c).getD [], none)).foldl setTo p).readLastShort
        p.shorts last following := by
  have hflags := readShorts_eq p fun c hc => h c (List.mem_append_left _ hc)
  have hread : p.readArg p.shorts (dash :: body.1 :: body.2) following =
      ((body.1 :: body.2).dropLast.foldl (readShort p.shorts) p).readLastShort p.shorts
        ((body.1 :: body.2).getLast (by simp)) following := by
    rw [readArg, if_pos rfl, if_neg hhead]
  rw [hbody, hread, ← hflags]
  simp only [← hbody, List.dropLast_concat, List.getLast_concat]

theorem readLastShort_none {q r : Parser V} {c : UInt8} {name : Str}
    (h : r.shorts.lookup c = some name) (haccepts : q.Accepts (name, none))
    (following : Option Str) :
    q.readLastShort r.shorts c following = (q.setTo (name, none), false) := by
  rcases hasValue_of_accepts haccepts with ⟨o, ho, hvalue⟩
  rcases readLastShort_cases (r := r) q c following with
    ⟨hnone, _⟩ | ⟨name', hname, ⟨_, heq⟩ | ⟨value, _, htakes, _⟩⟩
  · rw [h] at hnone
    cases hnone
  · rw [h, Option.some.injEq] at hname
    rw [heq, hname]
  · rw [h, Option.some.injEq] at hname
    rw [← hname, ho, Option.any_some, hvalue] at htakes
    cases htakes

theorem readLastShort_some {q r : Parser V} {c : UInt8} {name value : Str}
    (h : r.shorts.lookup c = some name) (haccepts : q.Accepts (name, some value)) :
    q.readLastShort r.shorts c (some value) = (q.setTo (name, some value), true) := by
  rcases hasValue_of_accepts haccepts with ⟨o, ho, hvalue⟩
  rcases readLastShort_cases (r := r) q c (some value) with
    ⟨hnone, _⟩ | ⟨name', hname, ⟨hwhy, _⟩ | ⟨value', hfollow, _, heq⟩⟩
  · rw [h] at hnone
    cases hnone
  · rw [h, Option.some.injEq] at hname
    rw [← hname, ho, Option.any_some, hvalue] at hwhy
    rcases hwhy with hwhy | hwhy <;> cases hwhy
  · rw [h, Option.some.injEq] at hname
    rw [heq, hname, Option.some.inj hfollow]

theorem readArg_rest (p : Parser V) {arg : Str} (h : arg.head? ≠ some dash)
    (shorts : List (UInt8 × Str)) (following : Option Str) :
    p.readArg shorts arg following = ({ p with others := p.others ++ [arg] }, false) := by
  match arg with
  | [] => rfl
  | [c] => rw [readArg, if_neg (by simpa using h)]
  | c :: d :: body => rw [readArg, if_neg (by simpa using h)]

theorem exists_cons_of_ne_dash {flags : List UInt8} {last : UInt8}
    (h : (flags ++ [last]).head? ≠ some dash) :
    ∃ d body, flags ++ [last] = d :: body ∧ d ≠ dash := by
  cases flags with
  | nil => exact ⟨last, [], rfl, by simpa using h⟩
  | cons d rest => exact ⟨d, rest ++ [last], rfl, by simpa using h⟩

/-- An allowed item is read as it is written. -/
theorem readArg_item {p : Parser V} {item : Item} (h : p.Allows item) :
    ∃ arg, (item.words = [arg] ∧
        ∀ following, p.readArg p.shorts arg following = (p.apply item, false)) ∨
      ∃ value, item.words = [arg, value] ∧
        p.readArg p.shorts arg (some value) = (p.apply item, true) := by
  rcases h with ⟨hclear, hletters, hsettings⟩
  cases item with
  | rest arg =>
      refine ⟨arg, .inl ⟨rfl, ?_⟩⟩
      intro following
      exact readArg_rest p hclear p.shorts following
  | dash =>
      have happly : p.apply .dash = p := apply_eq_setAll rfl
      refine ⟨_, .inl ⟨rfl, ?_⟩⟩
      intro following
      rw [happly, readArg, if_pos rfl]
  | long name =>
      have happly : p.apply (.long name) = p.setTo (name, none) := apply_eq_setAll rfl
      rcases hasValue_of_accepts (hsettings (name, none) (by simp [Item.settings])) with
        ⟨o, ho, hvalue⟩
      refine ⟨_, .inl ⟨rfl, ?_⟩⟩
      intro following
      rw [happly, readArg, if_pos rfl, if_pos rfl, readLong.eq_def, if_neg hclear]
      simp only [ho, hvalue]
      rfl
  | longEq name value =>
      have happly : p.apply (.longEq name value) = p.setTo (name, some value) :=
        apply_eq_setAll rfl
      refine ⟨_, .inl ⟨rfl, ?_⟩⟩
      intro following
      rw [happly, readArg, if_pos rfl, if_pos rfl, readLong_equals p hclear]
  | longSep name value =>
      have happly : p.apply (.longSep name value) = p.setTo (name, some value) :=
        apply_eq_setAll rfl
      rcases hasValue_of_accepts (hsettings (name, some value) (by simp [Item.settings])) with
        ⟨o, ho, hvalue⟩
      refine ⟨_, .inr ⟨value, rfl, ?_⟩⟩
      rw [happly, readArg, if_pos rfl, if_pos rfl, readLong.eq_def, if_neg hclear]
      simp only [ho, hvalue]
      rfl
  | short flags last =>
      rcases exists_cons_of_ne_dash hclear with ⟨d, body, hbody, hd⟩
      rcases Option.isSome_iff_exists.mp (hletters last (by simp [Item.letters])) with ⟨name, hname⟩
      rw [Item.settings, List.map_append, List.forall_mem_append] at hsettings
      have hlast : p.Accepts (name, none) := by
        have haccepts := hsettings.2
        rwa [List.map_singleton, List.forall_mem_singleton, hname] at haccepts
      refine ⟨_, .inl ⟨rfl, ?_⟩⟩
      intro following
      rw [readShort_flags p hletters (d, body) hbody hd following, apply_eq_setAll rfl,
        readLastShort_none hname ((accepts_of_shape (onward_setAll _ p).shape _).mpr hlast),
        Item.settings, List.map_append, List.foldl_append]
      simp [hname]
  | shortSep flags last value =>
      rcases exists_cons_of_ne_dash hclear with ⟨d, body, hbody, hd⟩
      rcases Option.isSome_iff_exists.mp (hletters last (by simp [Item.letters])) with ⟨name, hname⟩
      rw [Item.settings, List.forall_mem_append] at hsettings
      have hlast : p.Accepts (name, some value) := by
        have haccepts := hsettings.2
        rwa [List.forall_mem_singleton, hname] at haccepts
      refine ⟨_, .inr ⟨value, rfl, ?_⟩⟩
      rw [readShort_flags p hletters (d, body) hbody hd, apply_eq_setAll rfl,
        readLastShort_some hname ((accepts_of_shape (onward_setAll _ p).shape _).mpr hlast),
        Item.settings, List.foldl_append]
      simp [hname]

/-! ## All the arguments -/

theorem onward_readArgs (p r : Parser V) (args : List Str) :
    Onward p (p.readArgs r.shorts args) := by
  induction p, args using readArgs.induct r.shorts with
  | case1 p => exact .refl p
  | case2 p arg =>
      rw [readArgs]
      exact onward_readArg p r arg none
  | case3 p arg value rest htook ih =>
      rw [readArgs, if_pos htook]
      exact (onward_readArg p r arg (some value)).trans ih
  | case4 p arg value rest htook ih =>
      rw [readArgs, if_neg htook]
      exact (onward_readArg p r arg (some value)).trans ih

theorem readArgs_reads (p r : Parser V) (args : List Str) (hshape : p.shape = r.shape)
    (h : (p.readArgs r.shorts args).errors = p.errors) :
    ∃ items : List Item, args = items.flatMap Item.words ∧ (∀ item ∈ items, r.Allows item) ∧
      p.readArgs r.shorts args = p.applyAll items := by
  have hshorts := shorts_eq_of_shape hshape
  induction p, args using readArgs.induct r.shorts with
  | case1 p => exact ⟨[], rfl, by simp, rfl⟩
  | case2 p arg =>
      rw [readArgs, ← shorts_eq_of_shape hshape] at h ⊢
      rcases readArg_reads p arg none h with ⟨item, hallows, heq, ⟨_, hwords⟩ | ⟨_, _, hnone, _⟩⟩
      · refine ⟨[item], by simp [hwords], ?_, heq⟩
        simpa using (allows_of_shape hshape item).mp hallows
      · cases hnone
  | case3 p arg value rest htook ih =>
      have honward := onward_readArg p r arg (some value)
      rw [readArgs, if_pos htook] at h ⊢
      have hsqueeze := honward.squeeze (onward_readArgs _ r rest) h
      have hafter := honward.shape.trans hshape
      rcases ih hafter hsqueeze.2 (shorts_eq_of_shape hafter) with ⟨items, hrest, hallow, hread⟩
      have hfirst := hsqueeze.1
      rw [← hshorts] at htook hfirst
      rcases readArg_reads p arg (some value) hfirst with
        ⟨item, hitem, heq, ⟨hnot, _⟩ | ⟨_, value', hvalue, hwords⟩⟩
      · rw [htook] at hnot
        cases hnot
      · refine ⟨item :: items, ?_, ?_, ?_⟩
        · rw [List.flatMap_cons, hwords, ← hrest, Option.some.inj hvalue]
          rfl
        · rw [List.forall_mem_cons]
          exact ⟨(allows_of_shape hshape item).mp hitem, hallow⟩
        · rw [hread, ← hshorts, heq]
          rfl
  | case4 p arg value rest htook ih =>
      have honward := onward_readArg p r arg (some value)
      rw [readArgs, if_neg htook] at h ⊢
      have hsqueeze := honward.squeeze (onward_readArgs _ r (value :: rest)) h
      have hafter := honward.shape.trans hshape
      rcases ih hafter hsqueeze.2 (shorts_eq_of_shape hafter) with ⟨items, hrest, hallow, hread⟩
      have hfirst := hsqueeze.1
      rw [← hshorts] at htook hfirst
      rcases readArg_reads p arg (some value) hfirst with
        ⟨item, hitem, heq, ⟨_, hwords⟩ | ⟨htake, _⟩⟩
      · refine ⟨item :: items, ?_, ?_, ?_⟩
        · rw [List.flatMap_cons, hwords, ← hrest]
          rfl
        · rw [List.forall_mem_cons]
          exact ⟨(allows_of_shape hshape item).mp hitem, hallow⟩
        · rw [hread, ← hshorts, heq]
          rfl
      · exact absurd htake htook

theorem readArgs_items (items : List Item) (p r : Parser V) (hshape : p.shape = r.shape)
    (hallow : ∀ item ∈ items, r.Allows item) :
    p.readArgs r.shorts (items.flatMap Item.words) = p.applyAll items := by
  induction items generalizing p with
  | nil => rfl
  | cons item rest ih =>
      rw [List.forall_mem_cons] at hallow
      have hshorts := shorts_eq_of_shape hshape
      have hnext : (p.apply item).readArgs r.shorts (rest.flatMap Item.words) =
          (p.apply item).applyAll rest :=
        ih (p.apply item) ((onward_apply p item).shape.trans hshape) hallow.2
      have hall : p.applyAll (item :: rest) = (p.apply item).applyAll rest := rfl
      rcases readArg_item ((allows_of_shape hshape item).mpr hallow.1) with
        ⟨arg, ⟨hwords, hread⟩ | ⟨value, hwords, hread⟩⟩
      · rw [hshorts] at hread
        rw [hall, ← hnext, List.flatMap_cons, hwords, List.singleton_append]
        cases rest.flatMap Item.words with
        | nil => rw [readArgs, readArgs, hread none]
        | cons value more => rw [readArgs, hread (some value), if_neg (by simp)]
      · rw [hshorts] at hread
        rw [hall, ← hnext, List.flatMap_cons, hwords, List.cons_append, List.singleton_append,
          readArgs, hread, if_pos rfl]

theorem errors_applyAll {items : List Item} (p r : Parser V) (hshape : p.shape = r.shape)
    (hallow : ∀ item ∈ items, r.Allows item) : (p.applyAll items).errors = p.errors := by
  induction items generalizing p with
  | nil => rfl
  | cons item rest ih =>
      rw [List.forall_mem_cons] at hallow
      have hitem := (allows_of_shape hshape item).mpr hallow.1
      have hrest := ih (p.apply item) ((onward_apply p item).shape.trans hshape) hallow.2
      exact hrest.trans ((apply_quiet_iff p item).mpr hitem.settings)

theorem parse_eq (p : Parser V) (prog : Str) (args : List Str) :
    p.parse (prog :: args) =
      match makeLookup [] p.options with
      | .error c =>
          ((p.started prog).fail (ascii "short option '" ++ [c] ++ ascii "' is ambiguous"), false)
      | .ok lookup =>
          let q := (p.started prog).readArgs lookup args
          ({ q with errors := q.errors ++ q.needs }, (q.errors ++ q.needs).isEmpty) := by
  have hstarted : (if p.progName = [] then
      { p with errors := [], others := [], progName := prog }
      else { p with errors := [], others := [] }) = p.started prog := by
    unfold started
    split <;> rfl
  rw [parse]
  simp only [hstarted]
  rfl

/-- A command line that is accepted is spelled out by items that the parser allows. -/
theorem items_of_parse {p p' : Parser V} {prog : Str} {args : List Str}
    (h : p.parse (prog :: args) = (p', true)) :
    (keys p.shorts).Nodup ∧ ∃ items : List Item,
      args = items.flatMap Item.words ∧ (∀ item ∈ items, p.Allows item) ∧
        p' = (p.started prog).applyAll items ∧ p'.needs = [] := by
  have hshape : (p.started prog).shape = p.shape := rfl
  rw [parse_eq] at h
  cases hlookup : makeLookup [] p.options with
  | error c =>
      rw [hlookup] at h
      cases (Prod.mk.inj h).2
  | ok lookup =>
      rcases (makeLookup_iff p.options [] List.nodup_nil lookup).mp hlookup with ⟨hnodup, hl⟩
      rw [List.nil_append] at hnodup hl
      rw [hlookup, hl] at h
      rcases Prod.mk.inj h with ⟨hp', hempty⟩
      rcases List.append_eq_nil_iff.mp (List.isEmpty_iff.mp hempty) with ⟨hquiet, hneeds⟩
      rcases readArgs_reads (p.started prog) p args hshape hquiet with
        ⟨items, hargs, hallow, hread⟩
      have hsame : p' = (p.started prog).readArgs p.shorts args := by
        rw [← hp']
        simp only [hneeds, List.append_nil]
        rfl
      refine ⟨hnodup, items, hargs, hallow, ?_, ?_⟩
      · rw [hsame, hread]
      · rw [hsame]
        exact hneeds

/-- What is spelled out by such items is accepted. -/
theorem parse_of_items {p : Parser V} {items : List Item} (prog : Str)
    (hnodup : (keys p.shorts).Nodup) (hallow : ∀ item ∈ items, p.Allows item)
    (hneeds : ((p.started prog).applyAll items).needs = []) :
    p.parse (prog :: items.flatMap Item.words) = ((p.started prog).applyAll items, true) := by
  have hshape : (p.started prog).shape = p.shape := rfl
  have hlookup : makeLookup [] p.options = .ok p.shorts :=
    (makeLookup_iff p.options [] List.nodup_nil p.shorts).mpr ⟨hnodup, rfl⟩
  have hread := readArgs_items items (p.started prog) p hshape hallow
  have hquiet : ((p.started prog).applyAll items).errors = [] :=
    errors_applyAll (p.started prog) p hshape hallow
  have hsame : ∀ q : Parser V, q.errors = [] → q.needs = [] →
      ({ q with errors := q.errors ++ q.needs }, (q.errors ++ q.needs).isEmpty) = (q, true) := by
    rintro ⟨options, progName, others, errors⟩ herrors hnone
    simp only at herrors
    subst herrors
    rw [hnone]
    rfl
  rw [parse_eq]
  simp only [hlookup, hread]
  exact hsame _ hquiet hneeds

/-- `parse` succeeds on exactly the command lines that are spelled out by items which
the parser allows, where no two options share a short name and none that is needed is
left out; and then it has done what the items say. -/
theorem parse_iff (p p' : Parser V) (prog : Str) (args : List Str) :
    p.parse (prog :: args) = (p', true) ↔
      (keys p.shorts).Nodup ∧ ∃ items : List Item,
        args = items.flatMap Item.words ∧ (∀ item ∈ items, p.Allows item) ∧
          p' = (p.started prog).applyAll items ∧ p'.needs = [] := by
  constructor
  · exact items_of_parse
  · rintro ⟨hnodup, items, rfl, hallow, rfl, hneeds⟩
    exact parse_of_items prog hnodup hallow hneeds

end Parser

end NetTest.Cmdline
