import Eel.Proofs.Manifest.Checking
import Eel.Proofs.Program.Linking
import Eel.Proofs.Source.Recleaning
import Eel.Proofs.Token.Tiling
import Eel.Proofs.Tree.Printing

/-!
Names are what sources can name.

A text is checked for being a name by a rule of its own, not by reading it. The
rule is met by just those texts that are read as one name and nothing else. So
every variable that a manifest may declare is reached from sources by its name,
for reading and for every kind of assignment.
-/

namespace Eel

open Bytes Text List

namespace Token

variable {name : Bytes}

theorem admits_identifier_iff : Kind.Admits .identifier name ↔ isName name = true := by
  constructor
  · rintro ⟨hc, hrest, hif⟩
    simp only [isName, hc, hif, Bool.not_false, Bool.true_and, all_eq_true]
    exact hrest
  · intro h
    cases name with
    | nil => cases h
    | cons c rest =>
      simp only [isName, Bool.and_eq_true, Bool.not_eq_true', all_eq_true] at h
      exact .identifier h.1.1 h.2 h.1.2

/-- The tokens of a name are the name itself and the end behind it. -/
theorem list_of_isName (h : isName name = true) :
    list name = [⟨.identifier, name, .start⟩, ⟨.finish, [], Position.start.along name.length⟩] := by
  have hadmits := admits_identifier_iff.mpr h
  have hlongest : Longest name .identifier name :=
    ⟨hadmits, prefix_rfl, fun _ hfront => hfront.length_le⟩
  have hcomment : Cleaned.opensComment name = false := by
    obtain ⟨hc, -, -⟩ := hadmits
    refine opensComment_of_ne ?_ _
    rintro rfl
    cases hc
  have htile := @isTile_of_longest name 0 ⟨.identifier, name, .start⟩ hlongest hcomment rfl
  rw [Nat.zero_add] at htile
  have htiles : Tiles name 0 _ := .token (.refl _ _) htile (.finish (.refl _ _))
  rw [← htile.stop] at htiles
  exact htiles.list_eq

/-- A text whose first token is a name that leaves nothing out is a name. -/
theorem isName_of_list {t : Token} {ts : List Token} (h : list name = t :: ts)
    (hkind : t.kind = .identifier) (hlexeme : t.lexeme = name) : isName name = true := by
  have htiles := tiles_list name
  rw [h] at htiles
  cases htiles with
  | finish | illegal | openComment => cases hkind
  | token _ ht _ => exact admits_identifier_iff.mp (hkind ▸ hlexeme ▸ ht.longest.admits)

/-- Names are in the form in which they are compared once they are read. -/
theorem lower_lower_of_isName (h : isName name = true) : lower (lower name) = lower name := by
  have hword : word? ⟨(classify name).1, (classify name).2, .start⟩ = some (.name name) := by
    rw [(admits_identifier_iff.mpr h).classify_eq]
    rfl
  exact lower_of_isLowerName (isRead_classify hword).1

end Token

/-- The script of one variable that stands alone, in the form in which names are
read. -/
def Script.ofName (name : Bytes) : Script :=
  let span : Span := ⟨.start, Position.start.along name.length⟩
  ⟨[.ident ⟨lower name, span⟩], span⟩

theorem Script.parse_of_isName {name : Bytes} (h : Token.isName name = true) :
    parse name = .ok (.ofName name) := by
  rw [parse, Token.list_of_isName h]
  rfl

variable {op : AssignOp} {t : Node} {text value : Bytes} {o : Options} {σ : Type}
  {v : Double} {f : Form}

namespace Grammar

open Token

variable {name : Bytes}

theorem written_name (h : isName name = true) :
    Written .primary name (.ident { name := lower name }) := by
  have hadmits := admits_identifier_iff.mpr h
  have hspelled : (Word.name name).isSpelled = true := by
    simp [Word.isSpelled, Word.text, Word.kind, hadmits.classify_eq, hadmits.ne_nil]
  have hstarts : Starts follows name := by
    obtain ⟨hc, -, -⟩ := hadmits
    exact .cons (follows_of_continuesName (continuesName_of_startsName hc)) _
  exact .word (w := .name name) hspelled hstarts .name

theorem written_value (h : isName name = true) :
    Written (.expr false) name (.ident { name := lower name }) :=
  ((written_name h).imp fun _ => .unsigned).raise.expr

/-- A name, an assignment and what is assigned. -/
theorem written_assigned (h : isName name = true) (hop : op.isProper = true)
    (hvalue : Written (.expr false) value t) :
    Written (.expr false) (Node.infixed name op.text value)
      (.assign op (.ident { name := lower name }) t .none) := by
  obtain ⟨s, hassigns, htext⟩ := exists_assigns op hop
  rw [← htext]
  exact (written_name h).infixed hvalue fun ws us hws hus => .assign hws rfl hassigns hus

theorem Written.exists_spells (h : Written f text t) : ∃ ws, Derives f ws t ∧ Spells text ws := by
  obtain ⟨-, ws, hderives, hspells⟩ := h
  have hwords := hspells [] [] (.nil _) .nil
  rw [append_nil, append_nil] at hwords
  exact ⟨ws, hderives, hwords⟩

/-- What is written stays as it is when it is cleaned. -/
theorem Written.text_ofSource (h : Written f text t) : (Cleaned.ofSource text).text = text := by
  obtain ⟨ws, -, hspells⟩ := h.exists_spells
  exact Cleaned.text_ofSource_of_plain hspells.free hspells.plain

/-- What is written as an expression is the source of a script with one
statement. -/
theorem Written.exists_parse (h : Written (.expr false) text t) :
    ∃ source, Source.parse text = .ok source ∧ Node.bareAll source.script.body = [t] := by
  obtain ⟨ws, hderives, hspells⟩ := h.exists_spells
  have hscript : Grammar.Script (ws ++ semicolons 0) [t] := .statements 0 (.last hderives 0)
  rw [semicolons, replicate_zero, append_nil] at hscript
  obtain ⟨script, hparse, hbody⟩ := Tree.parse_of_spell hspells.spell hscript
  rw [← h.text_ofSource] at hparse
  exact ⟨_, Source.parse_of_script hparse, hbody⟩

end Grammar

namespace Node

theorem eq_ident_of_bare {n : Node} {name : Bytes} (h : n.bare = .ident { name }) :
    ∃ id, n = .ident id ∧ id.name = name := by
  cases n <;> simp [bare] at h
  exact ⟨_, rfl, h⟩

theorem eq_assign_of_bareAll {body : List Node} {target : Bytes}
    (h : bareAll body = [.assign op (.ident { name := target }) (.ident { name := value }) .none]) :
    ∃ x y span, body = [.assign op (.ident x) (.ident y) span] ∧ x.name = target ∧
      y.name = value := by
  rw [bareAll_eq_map, map_eq_singleton_iff] at h
  obtain ⟨n, rfl, hn⟩ := h
  cases n <;> simp [bare] at hn
  obtain ⟨rfl, htarget, hvalue⟩ := hn
  obtain ⟨x, rfl, hx⟩ := eq_ident_of_bare htarget
  obtain ⟨y, rfl, hy⟩ := eq_ident_of_bare hvalue
  exact ⟨x, y, _, rfl, hx, hy⟩

end Node

/-- An assignment from a variable of which nothing is known is as simple as it
can be. -/
theorem Simplify.roundBody_assign (op : AssignOp) (x y : Ident) (span : Span) :
    roundBody .clamped [.assign op (.ident x) (.ident y) span] =
      [.assign op (.ident x) (.ident y) span] := by
  cases op <;> rfl

/-- Where the state that is left differs in one variable, the store that holds
it differs in one global. -/
theorem Layout.Holds.globals_of_setVar {layout : Layout} {store store' : Machine.Store σ}
    {state : State σ} {x : Bytes} {i : Nat} (h : layout.Holds store state)
    (h' : layout.Holds store' (state.setVar x v)) (hspares : layout.Spares store store')
    (hi : layout.place x = some i) : store'.globals = store.globals.setIfInBounds i v := by
  have hset := h.setVar hi v
  refine Array.ext_getElem? fun k => ?_
  by_cases hk : ∃ y, layout.place y = some k
  · obtain ⟨y, hy⟩ := hk
    rw [h'.var hy, hset.var hy]
  · have hik : i ≠ k := fun hik => hk ⟨x, hik ▸ hi⟩
    rw [hspares.global k (not_exists.mp hk), Array.getElem?_setIfInBounds_ne hik]

theorem AssignOp.exists_apply (h : op.isProper = true) (host : Machine.Host σ)
    (old value : Double) : ∃ v, op.apply host old value = pure v := by
  cases op with
  | set | add | sub | mul | div | rem => exact ⟨_, rfl⟩
  | other => cases h

/-- The state that an assignment from one variable to another leaves. -/
theorem Node.state_of_assign (host : Machine.Host σ) (x y : Ident) (span : Span) (s : State σ)
    (hv : op.apply host (s.vars x.name) (s.vars y.name) = pure v) :
    (Run.all (evalEach host [.assign op (.ident x) (.ident y) span]) s).2 = s.setVar x.name v := by
  change (op.apply host (s.vars x.name) (s.vars y.name) s).2.setVar x.name
    (op.apply host (s.vars x.name) (s.vars y.name) s).1 = _
  rw [hv]
  rfl

namespace Program

open Machine

/-- That the first function of a program assigns to one imported variable the
value of another one, combined with the value before as the operator says. All
other globals stay as they are. -/
def Assigns (p : Program) (target : Bytes × Bytes) (op : AssignOp) (value : Bytes × Bytes) : Prop :=
  ∃ i j : Nat, p.externals[i]? = some target ∧ p.externals[j]? = some value ∧
    ∀ {σ : Type} (host : Host σ) (store : Store σ), p.Fits store → ∃ store' old new v,
      store.globals[i]? = some old ∧ store.globals[j]? = some new ∧ op.apply host old new = pure v ∧
      @invoke σ .binary64 host p.table depthLimit HostFunction.all.length store [] =
        .done store' [] ∧
      store'.globals = store.globals.setIfInBounds i v

theorem assigns_of_body {p : Program} {f : Prepared} (h : ofPrepared [f] = .ok p)
    (hlive : f.isLive = true) (hnames : ∀ id ∈ Node.mentionsAll f.body, lower id.name = id.name)
    (hop : op.isProper = true) {a b : Ident} {span : Span}
    (hbody : f.body = [.assign op (.ident a) (.ident b) span]) {x y : Bytes}
    (hx : f.pool.find? a.name = some x) (hy : f.pool.find? b.name = some y) :
    p.Assigns (splitKey (variableKey f.pool.name x)) op (splitKey (variableKey f.pool.name y)) := by
  obtain ⟨final, hdrafted⟩ := drafted_of_ofPrepared h
  have hrealizes := hdrafted.realizes (by simpa using hnames)
  have hfunctions : live [f] = [f] := by simp [live, hlive]
  have hplace (id : Ident) (hid : id ∈ Node.mentionsAll f.body) :=
    Option.isSome_iff_exists.mp
      (hrealizes.placed (by rw [hfunctions]; exact mem_singleton_self f) id hid)
  obtain ⟨i, hi⟩ := hplace a (by simp [hbody, Node.mentionsAll, Node.mentions])
  obtain ⟨j, hj⟩ := hplace b (by simp [hbody, Node.mentionsAll, Node.mentions])
  refine ⟨i, j, hdrafted.externals_of_place hi hx, hdrafted.externals_of_place hj hy,
    fun host store hfits => ?_⟩
  have hholds := (hrealizes.places f.pool).holds_view hfits
  obtain ⟨store', hinvoke, hholds', hspares⟩ :=
    hrealizes.computes (i := 0) (f := f) (by rw [hfunctions]; rfl) host store hfits
  obtain ⟨v, hv⟩ :=
    AssignOp.exists_apply hop host (((layoutOf [f] final f.pool).view store).vars a.name)
    (((layoutOf [f] final f.pool).view store).vars b.name)
  rw [hbody, Node.state_of_assign host a b span _ hv] at hholds'
  exact ⟨store', _, _, v, hholds.var hi, hholds.var hj, hv, hinvoke,
    hholds.globals_of_setVar hholds' hspares hi⟩

end Program

theorem Options.InOrder.pool_eq (h : o.InOrder) {pool : Pool} (hpool : pool ∈ o.pools) :
    o.pool pool.name = pool := by
  rw [Options.pool, (find?_key_eq_some_iff h.poolNames).mpr ⟨hpool, rfl⟩]
  rfl

/-- The name of a variable as it is read means the variable as it is
declared. -/
theorem Pool.IsPlain.find?_lower {pool : Pool} (h : pool.IsPlain) {x : Bytes} (hx : x ∈ pool.vars) :
    pool.find? (lower x) = some x :=
  (find?_eq_some_iff h.distinct).mpr ⟨hx, (Token.lower_lower_of_isName (h.names x hx).1).symm⟩

/-- A single function whose source parses and whose calls are proper makes a
program. -/
theorem Program.exists_of_single (ho : o.InOrder) {decl : FunctionDecl}
    (hfunctions : o.functions = [decl]) {source : Source}
    (hparse : Source.parse decl.source = .ok source) (hcalls : ∀ c ∈ source.calls, c.IsProper) :
    ∃ p g, ofOptions o = .ok p ∧ Prepared.ofDecl o decl = .ok g ∧ ofPrepared [g] = .ok p := by
  have hcompiles : ∃ bin, compile o = .ok bin := by
    refine compile_eq_ok_iff.mpr
      ⟨Options.fault?_eq_none_iff.mpr ho, fun decl' hdecl => ⟨source, ?_, hcalls⟩⟩
    rw [hfunctions, mem_singleton] at hdecl
    rw [hdecl, hparse]
  obtain ⟨bin, hbin⟩ := hcompiles
  obtain ⟨p, hp, -⟩ := compile_eq_ok hbin
  obtain ⟨-, fs, hread, hprepared⟩ := ofOptions_eq_ok hp
  rw [hfunctions] at hread
  rcases Except.forall₂_of_mapM hread with _ | ⟨hg, ⟨⟩⟩
  exact ⟨p, _, hp, hg, hprepared⟩

/-- An assignment from one variable of a pool to another is compiled to a
program that does it. -/
theorem Program.exists_assigns (ho : o.InOrder) {pool : Pool} (hpool : pool ∈ o.pools)
    (hplain : pool.IsPlain) {x y : Bytes} (hx : x ∈ pool.vars) (hy : y ∈ pool.vars)
    (hop : op.isProper = true) {f : Bytes}
    (hfunctions : o.functions = [⟨f, pool.name, Node.infixed x op.text y⟩]) :
    ∃ p, ofOptions o = .ok p ∧
      p.Assigns (splitKey (variableKey pool.name x)) op (splitKey (variableKey pool.name y)) := by
  have hvalue := Grammar.written_value (hplain.names y hy).1
  obtain ⟨source, hparse, hbare⟩ :=
    (Grammar.written_assigned (hplain.names x hx).1 hop hvalue).exists_parse
  obtain ⟨a, b, span, hbody, ha, hb⟩ := Node.eq_assign_of_bareAll hbare
  have hcalls : source.calls = [] := by
    rw [Source.calls, hbody]
    rfl
  obtain ⟨p, g, hp, hg, hprepared⟩ := exists_of_single ho hfunctions hparse (by simp [hcalls])
  -- Simplifying leaves the assignment as it was read.
  obtain ⟨hsource, -, hpooled, hkept⟩ :=
    Prepared.invariant_of_ofDecl (P := (· = [.assign op (.ident a) (.ident b) span]))
    (fun _ h => h ▸ Simplify.roundBody_assign op a b span) hg
  obtain rfl : g.source = source := Except.ok.inj (hsource.symm.trans hparse)
  obtain rfl : g.pool = pool := hpooled.trans (ho.pool_eq hpool)
  have hlive : g.isLive = true := by simp [Prepared.isLive, Script.isEmpty, hbody]
  exact ⟨p, hp,
    assigns_of_body hprepared hlive (Prepared.lower_mentions_of_ofDecl hg) hop (hkept hbody)
    (ha ▸ hplain.find?_lower hx) (hb ▸ hplain.find?_lower hy)⟩

/-- That a variable of a pool is reached from sources by its name. -/
structure Pool.Reaches (pool : Pool) (pools : List Pool) (x : Bytes) : Prop where
  /-- The name as it is read means the variable as it is declared. -/
  found : pool.find? (lower x) = some x
  /-- Whatever can be read as an expression can be assigned to it, in every
  way. -/
  assigned : ∀ {op : AssignOp} {value : Node}, op.isProper = true → value.IsRead → ∃ source,
    Source.parse (Node.infixed x op.text value.print) = .ok source ∧
      Node.bareAll source.script.body = [.assign op (.ident { name := lower x }) value.bare .none]
  /-- A program that assigns one variable of the pool to another does so, under
  the names that are imported for them. -/
  run : ∀ {op : AssignOp} {y f : Bytes} (simplify : Bool) (maxRounds : Int), op.isProper = true →
    y ∈ pool.vars → f ≠ [] → ∃ p, Program.ofOptions
        { pools, functions := [⟨f, pool.name, Node.infixed x op.text y⟩], simplify, maxRounds } =
      .ok p ∧ p.Assigns (splitKey (variableKey pool.name x)) op (splitKey (variableKey pool.name y))

namespace Manifest

variable {m : Manifest} {pool : Pool} {x : Bytes}

theorem InOrder.reaches (h : m.InOrder) (hpool : pool ∈ m.pools) (hx : x ∈ pool.vars) :
    pool.Reaches m.pools x := by
  have hplain := h.pools pool hpool
  refine ⟨hplain.find?_lower hx, fun {op value} hop hvalue => ?_,
    fun {op y f} simplify maxRounds hop hy hf => ?_⟩
  · have hwritten := (Node.printed hvalue.wellFormed).expr
    rw [Node.unsigned_of_literals hvalue.literals] at hwritten
    exact (Grammar.written_assigned (hplain.names x hx).1 hop hwritten).exists_parse
  · have hproper : ∀ p ∈ m.pools, p.IsProper := fun p hp => (h.pools p hp).toIsProper
    refine Program.exists_assigns ⟨hproper, h.poolNames, ?_, ?_⟩ hpool hplain hx hy hop rfl
    · simpa using ⟨hf, pool, hpool, rfl⟩
    · exact nodup_singleton _

/-- The check for names agrees with reading. A text passes it if and only if its
tokens are one name, which is the whole text, and the end. Then it is a script
that reads one variable, with the name in lower case, and so each variable of a
manifest in which nothing is wrong is reached from sources. -/
theorem names_agree :
    (∀ name, Token.isName name = true ↔
      ∃ t stop, Token.list name = [t, stop] ∧ t.kind = .identifier ∧ t.lexeme = name ∧
        stop.kind = .finish) ∧
      (∀ name, Token.isName name = true → Script.parse name = .ok (.ofName name) ∧
        ∃ source, Source.parse name = .ok source ∧ source.script = .ofName name) ∧
      ∀ m : Manifest, m.problems = [] →
        ∀ pool ∈ m.pools, ∀ x ∈ pool.vars, pool.Reaches m.pools x := by
  refine ⟨fun name => ⟨fun h => ?_, ?_⟩, fun name h => ?_, fun m h pool hpool x hx => ?_⟩
  · exact ⟨_, _, Token.list_of_isName h, rfl, rfl, rfl⟩
  · rintro ⟨t, stop, hlist, hkind, hlexeme, -⟩
    exact Token.isName_of_list hlist hkind hlexeme
  · have hparse := Script.parse_of_isName h
    have hcleaned := (Grammar.written_name h).text_ofSource
    exact ⟨hparse, _, Source.parse_of_script (hcleaned.symm ▸ hparse), rfl⟩
  · exact (problems_eq_nil_iff.mp h).reaches hpool hx

/-- Names of letters in both cases, with an underscore in front and a word
behind a point that is no name alone. -/
def spelledNames : Manifest where
  pools := [⟨utf8 "frame", [utf8 "X", utf8 "_y.If"]⟩]

theorem spelledNames_reached : spelledNames.problems = [] ∧ Token.isName (utf8 "If") = false ∧
    Script.parse (utf8 "_y.If") = .ok (.ofName (utf8 "_y.If")) ∧
    (⟨utf8 "frame", [utf8 "X", utf8 "_y.If"]⟩ : Pool).Reaches spelledNames.pools
      (utf8 "_y.If") := by
  have hproblems : spelledNames.problems = [] := by
    rw [problems, Bytes.sort, mergeSort_of_pairwise (by decide +kernel)]
    decide +kernel
  obtain ⟨-, hparse, hreaches⟩ := names_agree
  exact ⟨hproblems, by decide, (hparse _ (by decide)).1,
    hreaches _ hproblems _ mem_cons_self _ (mem_cons_of_mem _ mem_cons_self)⟩

end Manifest

end Eel
