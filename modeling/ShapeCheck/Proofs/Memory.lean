import ShapeCheck.Proofs.PlainExpansion
import Mathlib.Data.List.TakeWhile
import Mathlib.Data.List.Chain

/-!
# Expansion with a memory

Resolving aliases without parameters remembers what an alias and a reference came to, keeps a chain
of the aliases being expanded, and marks those on a cycle when the chain comes back to one of them.
Every answer that is found or remembered is the one of plain expansion, and an alias that is marked
lies on a cycle. Conversely every cycle that was passed has a marked alias, though perhaps not all
its aliases are marked.

* `Expansion.expandAt_coherent` says what an expansion does.
-/

namespace ShapeCheck

variable {m l : Link} {rest : Chain} {rs ms : List Ty}

open Relation

/-- A text spells one name only, if names have no angle bracket. -/
theorem SpellsName.unique {a b text : String} (ha : SpellsName a text) (hb : SpellsName b text)
    (hplain : '<' ∉ a.toList) (hplain' : '<' ∉ b.toList) : a = b := by
  have htake : ∀ {c : String}, SpellsName c text → '<' ∉ c.toList →
      text.toList.takeWhile (· ≠ '<') = c.toList := by
    intro c hc hplain
    have hall : ∀ x ∈ c.toList, decide (x ≠ '<') = true := by
      intro x hx
      rw [decide_eq_true_iff]
      rintro rfl
      exact hplain hx
    rcases hc with rfl | ⟨rest, hrest⟩
    · rw [List.takeWhile_eq_self_iff]
      exact hall
    · rw [hrest, List.takeWhile_append_of_pos hall]
      simp
  have hlist := (htake ha hplain).symm.trans (htake hb hplain')
  exact String.toList_inj.mp hlist

theorem Shape.eq_reference_of_alike {s : Shape} {name : String}
    (h : s.Alike Eq (.reference name [])) : s = .reference name [] := by
  cases s with
  | reference other arguments =>
    obtain ⟨rfl, hargs⟩ := h
    cases hargs
    rfl
  | _ => exact h.elim

namespace Table

/-- If the alias lies on a cycle, then an alias that lies on one with it is marked as cyclic. -/
def Told (T : Table) (name : String) : Prop :=
  TransGen T.Refers name name → ∃ b x chain, T.alias? b = some x ∧ x.outcome =
  some (.cyclic chain) ∧
    ReflTransGen T.Refers name b ∧ ReflTransGen T.Refers b name

/-- Every alias that is referred to at the top of the type is told of. -/
def Heard (T : Table) (t : Ty) : Prop :=
  ∀ u name arguments, T.Exposes t u → T.shape u = .reference name arguments →
    (T.alias? name).isSome = true → T.Told name

/-- What holds of a table while its aliases, none of which has parameters, are being resolved. -/
structure Coherent (T : Table) : Prop where
  wellFormed : T.WellFormed
  spelled : T.Spelled
  params : ∀ name a, T.alias? name = some a → a.params = []
  plainName : ∀ name a, T.alias? name = some a → '<' ∉ name.toList
  outcomes : ∀ name a o, T.alias? name = some a → a.outcome = some o →
    T.Yields a.target (Expansion.outcomeType o)
  marked : ∀ name a chain, T.alias? name = some a → a.outcome = some (.cyclic chain) →
    TransGen T.Refers name name
  told : ∀ name, T.Done name → T.Told name
  instances : ∀ t r, T.instances.lookup t = some r → T.Has t ∧ T.Yields t r ∧ T.Heard t

section Told

variable {T T1 : Table} {t : Ty} {name : String} {a : Alias}

theorem Told.of_develops (hT : T.WellFormed) (h : T.Develops T1) (htold : T.Told name) :
    T1.Told name := by
  unfold Told
  rw [h.refers_eq hT]
  intro hcycle
  obtain ⟨b, x, chain, hx, ho, hto, hfrom⟩ := htold hcycle
  obtain ⟨y, hy, hxy⟩ := h.alias hx
  exact ⟨b, y, chain, hy, hxy.outcome _ ho, hto, hfrom⟩

theorem Heard.of_develops (hT : T.WellFormed) (h : T.Develops T1) (ht : T.Has t)
    (hheard : T.Heard t) : T1.Heard t := by
  intro u name arguments hu hs hname
  have hu' := (h.exposes_iff hT ht).mp hu
  rw [h.gains.shape (hu'.has hT ht)] at hs
  exact (hheard u name arguments hu' hs ((h.isSome name).symm.trans hname)).of_develops hT h

/-- An alias on a cycle refers to another one on it. -/
theorem told_of_heard (ha : T.alias? name = some a) (h : T.Heard a.target) : T.Told name := by
  intro hcycle
  obtain ⟨c, ⟨x, r, arguments, hx, hr, hs, hc⟩, hback⟩ := TransGen.head'_iff.mp hcycle
  have hrefers : T.Refers name c := ⟨x, r, arguments, hx, hr, hs, hc⟩
  rw [ha] at hx
  obtain rfl := Option.some.inj hx
  obtain ⟨b, y, chain, hy, ho, hto, hfrom⟩ :=
    h r c arguments hr hs hc (TransGen.tail' hback hrefers)
  exact ⟨b, y, chain, hy, ho, hto.head hrefers, hfrom.trans hback⟩

theorem told_of_marked {x : Alias} {chain : List String} (hx : T.alias? name = some x)
    (ho : x.outcome = some (.cyclic chain)) : T.Told name :=
  fun _ => ⟨name, x, chain, hx, ho, .refl, .refl⟩

theorem heard_reference {arguments : List Ty} (hs : T.shape t = .reference name arguments)
    (hexposed : T.exposed t = []) (h : (T.alias? name).isSome = true → T.Told name) :
    T.Heard t := by
  intro u name' arguments' hu hs' hname
  cases hu with
  | inner hm _ => simp [hexposed] at hm
  | self =>
    rw [hs] at hs'
    obtain ⟨rfl, rfl⟩ := Shape.reference.inj hs'
    exact h hname

theorem heard_of_exposed (href : ∀ name arguments, T.shape t = .reference name arguments →
    T.alias? name = none) (h : ∀ m ∈ T.exposed t, T.Heard m) : T.Heard t := by
  intro u name arguments hu hs hname
  cases hu with
  | inner hm hu => exact h _ hm u name arguments hu hs hname
  | self =>
    rw [href name arguments hs] at hname
    exact absurd hname (by simp)

end Told

namespace Coherent

variable {T T1 : Table} {t r : Ty} {name : String} {a : Alias}

/-- More types keep a table coherent. -/
theorem of_aliases (h : T.Coherent) (hT1 : T1.WellFormed) (hspelled : T1.Spelled)
    (hgains : T.Gains T1) (haliases : T1.aliases = T.aliases)
    (hinstances : T1.instances = T.instances) : T1.Coherent := by
  have hdevelops : T.Develops T1 := .of_aliases hgains haliases
  have halias : ∀ name, T1.alias? name = T.alias? name :=
    fun name => by rw [alias?, alias?, haliases]
  refine ⟨hT1, hspelled, ?_, ?_, ?_, ?_, ?_, ?_⟩
  · intro name a ha
    exact h.params name a (halias name ▸ ha)
  · intro name a ha
    exact h.plainName name a (halias name ▸ ha)
  · intro name a o ha ho
    rw [halias] at ha
    exact (h.outcomes name a o ha ho).of_develops h.wellFormed hdevelops
      (h.wellFormed.has_target ha)
  · intro name a chain ha ho
    rw [hdevelops.refers_eq h.wellFormed]
    exact h.marked name a chain (halias name ▸ ha) ho
  · rintro name ⟨a, o, ha, ho⟩
    exact (h.told name ⟨a, o, halias name ▸ ha, ho⟩).of_develops h.wellFormed hdevelops
  · intro t r hr
    rw [hinstances] at hr
    obtain ⟨ht, hyields, hheard⟩ := h.instances t r hr
    exact ⟨hgains.has ht, hyields.of_develops h.wellFormed hdevelops ht,
      hheard.of_develops h.wellFormed hdevelops ht⟩

/-- Work of constructors keeps a table coherent. -/
theorem settlesAt {α : Type} {work : Interning α} {x : α} (h : T.Coherent)
    (hat : Interning.SettlesAt T work x T1) (hwork : Interning.Constructs work) : T1.Coherent := by
  have hspelled := hwork.spelled T h.spelled
  rw [hat.result] at hspelled
  exact h.of_aliases hat.wellFormed hspelled (.of_le hat.adds.le) hat.adds.le.aliases hat.instances

/-- An outcome that is right keeps a table coherent. -/
theorem decided (h : T.Coherent) {o : AliasOutcome} (ha : T.alias? name = some a)
    (hnone : a.outcome = none) (hyields : T.Yields a.target (Expansion.outcomeType o))
    (hmarked : ∀ chain, o = .cyclic chain → TransGen T.Refers name name)
    (htold : (T.decided name o).Told name) : (T.decided name o).Coherent := by
  have hopen : ∀ b, T.alias? name = some b → b.outcome = none := by
    intro b hb
    rw [ha] at hb
    exact Option.some.inj hb ▸ hnone
  have hdevelops : T.Develops (T.decided name o) := (Table.evolves_decided hopen).develops
  have hT1 : (T.decided name o).WellFormed := by
    refine h.wellFormed.decided fun t ht => ?_
    subst ht
    exact hyields.has
  -- the alias of another name is the one from before
  have hother : ∀ other b, (T.decided name o).alias? other = some b → other ≠ name →
      T.alias? other = some b := by
    intro other b hb hne
    rw [Table.alias?_decided] at hb
    obtain ⟨c, hc, hcb⟩ := Option.map_eq_some_iff.mp hb
    rw [if_neg (by rw [(alias?_eq_some hc).2]; exact hne)] at hcb
    rwa [hcb] at hc
  have hself : (T.decided name o).alias? name = some { a with outcome := some o } := by
    rw [Table.alias?_decided, ha, Option.map_some, if_pos (alias?_eq_some ha).2]
  refine ⟨hT1, h.spelled, ?_, ?_, ?_, ?_, ?_, ?_⟩
  · intro other b hb
    obtain ⟨c, hc, hcb⟩ := hdevelops.alias_before hb
    rw [hcb.params]
    exact h.params other c hc
  · intro other b hb
    obtain ⟨c, hc, -⟩ := hdevelops.alias_before hb
    exact h.plainName other c hc
  · intro other b o' hb ho'
    by_cases hne : other = name
    · subst hne
      rw [hself] at hb
      obtain rfl := Option.some.inj hb
      obtain rfl : o = o' := Option.some.inj ho'
      have htarget : T.Has a.target := h.wellFormed.has_target ha
      exact hyields.of_develops h.wellFormed hdevelops htarget
    · have hb' := hother other b hb hne
      exact (h.outcomes other b o' hb' ho').of_develops h.wellFormed hdevelops
        (h.wellFormed.has_target hb')
  · intro other b chain hb ho'
    rw [hdevelops.refers_eq h.wellFormed]
    by_cases hne : other = name
    · subst hne
      rw [hself] at hb
      obtain rfl := Option.some.inj hb
      exact hmarked chain (Option.some.inj ho')
    · exact h.marked other b chain (hother other b hb hne) ho'
  · rintro other ⟨b, o', hb, ho'⟩
    by_cases hne : other = name
    · exact hne ▸ htold
    · exact (h.told other ⟨b, o', hother other b hb hne, ho'⟩).of_develops h.wellFormed hdevelops
  · intro t r hr
    obtain ⟨ht, hyields, hheard⟩ := h.instances t r hr
    exact ⟨ht, hyields.of_develops h.wellFormed hdevelops ht,
      hheard.of_develops h.wellFormed hdevelops ht⟩

/-- Remembering a right answer keeps a table coherent. -/
theorem remembered (h : T.Coherent) (ht : T.Has t) (hyields : T.Yields t r) (hheard : T.Heard t) :
    (Expansion.remembered T t r).Coherent := by
  have hdevelops : T.Develops (Expansion.remembered T t r) :=
    (Expansion.evolves_remembered T t r).develops
  have hT := h.wellFormed
  refine ⟨Expansion.wellFormed_remembered hT hyields.has t, h.spelled, h.params,
    h.plainName, ?_, ?_,
    ?_, ?_⟩
  · intro name a o ha ho
    exact (h.outcomes name a o ha ho).of_develops hT hdevelops (hT.has_target ha)
  · intro name a chain ha ho
    rw [hdevelops.refers_eq hT]
    exact h.marked name a chain ha ho
  · intro name hdone
    exact (h.told name hdone).of_develops hT hdevelops
  · intro u s hs
    by_cases hu : u = t
    · subst hu
      rw [Expansion.lookup_remembered_self] at hs
      obtain rfl := Option.some.inj hs
      exact ⟨ht, hyields.of_develops hT hdevelops ht, hheard.of_develops hT hdevelops ht⟩
    · rw [Expansion.lookup_remembered_other T r hu] at hs
      obtain ⟨hu, hyields, hheard⟩ := h.instances u s hs
      exact ⟨hu, hyields.of_develops hT hdevelops hu, hheard.of_develops hT hdevelops hu⟩

/-- Remembering what the reference to an alias stands for keeps a table coherent. -/
theorem rememberReference (h : T.Coherent) (ha : T.alias? name = some a)
    (hyields : T.Yields a.target r) (htold : T.Told name) :
    ((do Expansion.remember (← Ty.referenceTo name []) r : Interning Unit) T).2.Coherent := by
  obtain ⟨t, T1, hat, ht, halike⟩ := Interning.gives_referenceTo h.wellFormed name
    (show ∀ t ∈ [], T.Has t by simp)
  have h1 : T1.Coherent := h.settlesAt hat (Interning.constructs_intern _)
  have hdevelops : T.Develops T1 := .of_aliases (.of_le hat.adds.le) hat.adds.le.aliases
  have hs : T1.shape t = .reference name [] := Shape.eq_reference_of_alike halike
  have ha1 : T1.alias? name = some a := (Table.alias?_of_le hat.adds.le name).trans ha
  rw [Interning.bind_apply, hat.result]
  refine h1.remembered ht ((yields_reference_iff hs ha1).mpr ?_)
    (heard_reference hs (exposed_of_alias hs ha1) ?_)
  · exact hyields.of_develops h.wellFormed hdevelops (h.wellFormed.has_target ha)
  · exact fun _ => htold.of_develops h.wellFormed hdevelops

end Coherent

end Table

namespace Expansion

open Table

/-- The chain is a way in the graph of the aliases, and the type stands at the top of the target of
the last one. -/
structure Traces (T : Table) (chain : Chain) (t : Ty) : Prop where
  links : ∀ l ∈ chain, (T.alias? l.name).isSome = true ∧ SpellsName l.name l.key
  steps : chain.IsChain fun l m => T.Refers l.name m.name
  last : ∀ l ∈ chain.getLast?, ∃ x, T.alias? l.name = some x ∧ T.Exposes x.target t

section Chains

variable {T T1 : Table} {chain : Chain} {t : Ty} {name key : String}
  {arguments : List Ty} {a : Alias}

theorem traces_nil (T : Table) (t : Ty) : Traces T [] t := ⟨by simp, .nil, by simp⟩

/-- The chain of an alias that is resolved on its own. -/
theorem traces_single (ha : T.alias? name = some a) : Traces T ([] ++ [⟨name, name⟩]) a.target := by
  refine ⟨?_, by simp, ?_⟩
  · intro l hl
    obtain rfl : l = ⟨name, name⟩ := by simpa using hl
    exact ⟨by simp [ha], .inl rfl⟩
  · intro l hl
    obtain rfl : ⟨name, name⟩ = l := by simpa using hl
    exact ⟨a, ha, .self _⟩

theorem Traces.exposed (h : Traces T chain t) {m : Ty} (hm : m ∈ T.exposed t) :
    Traces T chain m := by
  refine ⟨h.links, h.steps, fun l hl => ?_⟩
  obtain ⟨x, hx, hexposes⟩ := h.last l hl
  exact ⟨x, hx, hexposes.trans (.inner hm (.self m))⟩

theorem Traces.of_develops (hT : T.WellFormed) (h1 : T.Develops T1) (h : Traces T chain t) :
    Traces T1 chain t := by
  refine ⟨fun l hl => ?_, ?_, fun l hl => ?_⟩
  · rw [h1.isSome]
    exact h.links l hl
  · rw [h1.refers_eq hT]
    exact h.steps
  · obtain ⟨x, hx, hexposes⟩ := h.last l hl
    obtain ⟨y, hy, hxy⟩ := h1.alias hx
    refine ⟨y, hy, ?_⟩
    rw [hxy.target]
    exact (h1.exposes_iff hT (hT.has_target hx)).mpr hexposes

/-- The alias of a reference is referred to by the last alias of the chain. -/
theorem Traces.refers (h : Traces T chain t) (hs : T.shape t = .reference name arguments)
    (hname : (T.alias? name).isSome = true) (hl : l ∈ chain.getLast?) : T.Refers l.name name := by
  obtain ⟨x, hx, hexposes⟩ := h.last l hl
  exact ⟨x, t, arguments, hx, hexposes, hs, hname⟩

/-- The chain goes on in the target of the alias. -/
theorem Traces.push (h : Traces T chain t) (hs : T.shape t = .reference name arguments)
    (ha : T.alias? name = some a) (hkey : SpellsName name key) :
    Traces T (chain ++ [⟨key, name⟩]) a.target := by
  have hname : (T.alias? name).isSome = true := by simp [ha]
  refine ⟨?_, ?_, ?_⟩
  · intro l hl
    rcases List.mem_append.mp hl with hl | hl
    · exact h.links l hl
    · rw [List.mem_singleton.mp hl]
      exact ⟨hname, hkey⟩
  · refine List.isChain_append.mpr ⟨h.steps, by simp, ?_⟩
    intro l hl m hm
    obtain rfl : ⟨key, name⟩ = m := by simpa using hm
    exact h.refers hs hname hl
  · intro l hl
    obtain rfl : ⟨key, name⟩ = l := by simpa using hl
    exact ⟨a, ha, .self _⟩

/-- In a chain every link leads to all later ones. -/
theorem reaches_of_isChain
    (h : (l :: rest).IsChain fun l m => T.Refers l.name m.name) (hm : m ∈ l :: rest) :
    ReflTransGen T.Refers l.name m.name := by
  induction rest generalizing l with
  | nil =>
    rw [List.mem_singleton.mp hm]
  | cons k rest ih =>
    rcases List.mem_cons.mp hm with rfl | hm
    · exact .refl
    · obtain ⟨hstep, hrest⟩ := List.isChain_cons_cons.mp h
      exact (ih hrest hm).head hstep

/-- A chain that comes back to one of its aliases is a cycle from there on. -/
theorem Traces.cycle (h : Traces T chain t) (hs : T.shape t = .reference name arguments)
    (hname : (T.alias? name).isSome = true) {before : Chain}
    (hchain : chain = before ++ l :: rest) (hl : l.name = name) (hm : m ∈ l :: rest) :
    TransGen T.Refers m.name m.name := by
  have hway : (l :: rest).IsChain fun l m => T.Refers l.name m.name := by
    have hsteps := h.steps
    rw [hchain] at hsteps
    exact (List.isChain_append.mp hsteps).2.1
  obtain ⟨k, hk⟩ : ∃ k, (l :: rest).getLast? = some k :=
    ⟨_, List.getLast?_eq_some_getLast (by simp)⟩
  have hlast : k ∈ chain.getLast? := by
    rw [hchain, List.getLast?_append, hk]
    simp
  have hback : T.Refers k.name l.name := hl ▸ h.refers hs hname hlast
  obtain ⟨first, later, hsplit⟩ := List.append_of_mem hm
  have hmk : ReflTransGen T.Refers m.name k.name := by
    rw [hsplit] at hway hk
    refine reaches_of_isChain (List.isChain_append.mp hway).2.1 ?_
    rw [List.getLast?_append_of_ne_nil _ (by simp)] at hk
    exact List.mem_of_getLast? hk
  exact (TransGen.tail' hmk hback).trans_left (reaches_of_isChain hway hm)

theorem exists_of_mem_runNames (h : name ∈ runNames chain) : ∃ l ∈ chain, l.name = name := by
  fun_induction runNames chain with
  | case1 => simp at h
  | case2 l => exact ⟨l, by simp, (List.mem_singleton.mp h).symm⟩
  | case3 l m rest hsame ih =>
    obtain ⟨k, hk, hname⟩ := ih h
    exact ⟨k, List.mem_cons_of_mem _ hk, hname⟩
  | case4 l m rest hother ih =>
    rcases List.mem_cons.mp h with rfl | h
    · exact ⟨l, by simp, rfl⟩
    · obtain ⟨k, hk, hname⟩ := ih h
      exact ⟨k, List.mem_cons_of_mem _ hk, hname⟩

theorem mem_runNames (chain : Chain) : ∀ l ∈ chain, l.name ∈ runNames chain := by
  intro l h
  fun_induction runNames chain generalizing l with
  | case1 => simp at h
  | case2 k => simp [List.mem_singleton.mp h]
  | case3 k m rest hsame ih =>
    rcases List.mem_cons.mp h with rfl | h
    · rw [hsame]
      exact ih m List.mem_cons_self
    · exact ih l h
  | case4 k m rest hother ih =>
    rcases List.mem_cons.mp h with rfl | h
    · exact List.mem_cons_self
    · exact List.mem_cons_of_mem _ (ih l h)

end Chains

section Marking

variable {T : Table} {chain : Chain} {t : Ty} {name : String} {arguments : List Ty} {a : Alias}

/-- Marking an alias that lies on a cycle keeps a table coherent. -/
theorem poison_coherent (hT : T.Coherent) (names : List String) (i : Nat)
    (hname : (T.alias? name).isSome = true) (hcycle : TransGen T.Refers name name) :
    (poison names name i T).2.Coherent ∧ T.Evolves (poison names name i T).2 ∧
      (poison names name i T).2.Done name := by
  have hevolves := (poison_spec Regime.resolves_building hT.wellFormed names name i).2
  obtain ⟨a, ha⟩ := Option.isSome_iff_exists.mp hname
  have hrun : poison names name i T = (if (T.alias? name).any (·.outcome.isNone) = true then do
      modify (·.updateAlias name fun a => { a with outcome := some (.cyclic (rotation names i)) })
      remember (← Ty.referenceTo name []) .invalid
    else pure () : Interning Unit) T := rfl
  cases ho : a.outcome with
  | some o =>
    have hdone : ¬(T.alias? name).any (·.outcome.isNone) = true := by simp [ha, ho]
    rw [hrun, if_neg hdone] at hevolves ⊢
    exact ⟨hT, hevolves, a, o, ha, ho⟩
  | none =>
    have hopen : (T.alias? name).any (·.outcome.isNone) = true := by simp [ha, ho]
    have hbad : ¬T.Fine a.target := not_fine_of_cycle hT.wellFormed ha hcycle
    have hself : (T.decided name (.cyclic (rotation names i))).alias? name =
        some { a with outcome := some (.cyclic (rotation names i)) } := by
      rw [alias?_decided, ha, Option.map_some, if_pos (alias?_eq_some ha).2]
    have hdecided := hT.decided (o := .cyclic (rotation names i)) ha ho (.inr ⟨hbad, rfl⟩)
      (fun _ _ => hcycle) (told_of_marked hself rfl)
    have hyields := hdecided.outcomes name _ _ hself rfl
    have hfinal := hdecided.rememberReference hself hyields (told_of_marked hself rfl)
    have hdone : (T.decided name (.cyclic (rotation names i))).Done name := ⟨_, _, hself, rfl⟩
    rw [hrun, if_pos hopen] at hevolves ⊢
    refine ⟨hfinal, hevolves, hdone.of_evolves ?_⟩
    exact (rememberReference_spec Regime.resolves_building hdecided.wellFormed name
      (Table.has_prim _ .invalid)).2

/-- Marking aliases that lie on cycles, one after the other. -/
theorem poisonAll_coherent (names : List String) (ps : List (String × Nat)) (hT : T.Coherent)
    (hps : ∀ p ∈ ps, (T.alias? p.1).isSome = true ∧ TransGen T.Refers p.1 p.1) :
    let T1 := ((ps.forM fun p => poison names p.1 p.2 : Interning Unit) T).2
    T1.Coherent ∧ T.Evolves T1 ∧ ∀ p ∈ ps, T1.Done p.1 := by
  induction ps generalizing T with
  | nil => exact ⟨hT, .refl T, by simp⟩
  | cons p ps ih =>
    obtain ⟨hname, hcycle⟩ := hps p (by simp)
    obtain ⟨h1, hevolves1, hdone⟩ := poison_coherent hT names p.2 hname hcycle
    obtain ⟨h2, hevolves2, hdones⟩ := ih h1 fun q hq => by
      rw [hevolves1.develops.isSome, hevolves1.develops.refers_eq hT.wellFormed]
      exact hps q (List.mem_cons_of_mem _ hq)
    refine ⟨h2, hevolves1.trans hevolves2, fun q hq => ?_⟩
    rcases List.mem_cons.mp hq with rfl | hq
    · exact hdone.of_evolves hevolves2
    · exact hdones q hq

/-- A chain that comes back to one of its aliases marks this alias, and only aliases on cycles. -/
theorem markCycle_coherent (hT : T.Coherent) (htraces : Traces T chain t)
    (hs : T.shape t = .reference name arguments) (hname : (T.alias? name).isSome = true)
    (hl : l ∈ chain) (hlname : l.name = name) :
    TransGen T.Refers name name ∧ (markCycle chain l.key T).2.Coherent ∧
      T.Evolves (markCycle chain l.key T).2 ∧ (markCycle chain l.key T).2.Done name := by
  have hplain : ∀ m ∈ chain, '<' ∉ m.name.toList := by
    intro m hm
    obtain ⟨x, hx⟩ := Option.isSome_iff_exists.mp (htraces.links m hm).1
    exact hT.plainName m.name x hx
  -- the first link with this key belongs to the same alias
  obtain ⟨first, rest, hrest⟩ : ∃ first rest, chain.dropWhile (·.key ≠ l.key) = first :: rest := by
    cases hdrop : chain.dropWhile (·.key ≠ l.key) with
    | nil =>
      have := List.dropWhile_eq_nil_iff.mp hdrop l hl
      simp at this
    | cons first rest => exact ⟨first, rest, rfl⟩
  have hchain : chain = chain.takeWhile (·.key ≠ l.key) ++ first :: rest := by
    rw [← hrest, List.takeWhile_append_dropWhile]
  have hmem : ∀ m ∈ first :: rest, m ∈ chain := by
    intro m hm
    rw [hchain]
    exact List.mem_append_right _ hm
  have hkey : first.key = l.key := by
    have := List.head?_dropWhile_not (fun m : Link => decide (m.key ≠ l.key)) chain
    rw [hrest] at this
    simpa using this
  have hfirst : first.name = name := by
    have hspells := (htraces.links first (hmem first (by simp))).2
    rw [hkey] at hspells
    rw [← hlname]
    exact hspells.unique (htraces.links l hl).2 (hplain first (hmem first (by simp))) (hplain l hl)
  have hcycles : ∀ m ∈ first :: rest, TransGen T.Refers m.name m.name := fun m hm =>
    htraces.cycle hs hname hchain hfirst hm
  have hps : ∀ p ∈ (cycleNames chain l.key).zipIdx,
      (T.alias? p.1).isSome = true ∧ TransGen T.Refers p.1 p.1 := by
    rintro ⟨other, i⟩ hp
    have hother := List.fst_mem_of_mem_zipIdx hp
    rw [cycleNames, hrest] at hother
    obtain ⟨m, hm, rfl⟩ := exists_of_mem_runNames hother
    exact ⟨(htraces.links m (hmem m hm)).1, hcycles m hm⟩
  obtain ⟨h1, hevolves, hdone⟩ := poisonAll_coherent (cycleNames chain l.key) _ hT hps
  refine ⟨hfirst ▸ hcycles first (by simp), h1, hevolves, ?_⟩
  have hin : name ∈ cycleNames chain l.key := by
    rw [cycleNames, hrest, ← hfirst]
    exact mem_runNames _ first (by simp)
  obtain ⟨i, hi, hget⟩ := List.mem_iff_getElem.mp hin
  exact hdone (name, i) (List.mem_zipIdx_iff_getElem?.mpr (by simp [← hget]))

end Marking

/-- An expansion leaves a coherent table and gives what it should, and every alias that it passed is
told of. -/
structure Expanded (T : Table) (t r : Ty) (T1 : Table) : Prop where
  coherent : T1.Coherent
  evolves : T.Evolves T1
  yields : T1.Yields t r
  heard : T1.Heard t

/-- The expansion of types one level below does what it should. -/
def ExpandCoheres (expand : Chain → Ty → Typing Ty) : Prop :=
  ∀ (chain : Chain) (T : Table) (t : Ty) (n : Nat) (r : Ty) (T1 : Table), T.Coherent → T.Has t →
    Traces T chain t → expand chain t n T = some (r, T1) → Expanded T t r T1

section Steps

variable {expand : Chain → Ty → Typing Ty} {T T1 : Table} {chain : Chain} {t r : Ty} {name : String}
  {arguments : List Ty} {a : Alias} {n : Nat}

theorem complete_coherent (hexpand : ExpandCoheres expand) (hT : T.Coherent)
    (ha : T.alias? a.name = some a) (htraces : Traces T (chain ++ [⟨a.name, a.name⟩]) a.target)
    (h : complete expand chain a n T = some (r, T1)) :
    T1.Coherent ∧ T.Evolves T1 ∧ T1.Yields a.target r ∧ T1.Done a.name := by
  obtain ⟨result, T2, hexp, h⟩ := Typing.bind_some h
  have hout := hexpand _ T a.target n result T2 hT (hT.wellFormed.has_target ha) htraces hexp
  obtain ⟨b, hb, hab⟩ := hout.evolves.develops.alias ha
  rw [Typing.get_bind, hb, Option.bind_some] at h
  cases ho : b.outcome with
  | some o =>
    rw [ho] at h
    obtain ⟨rfl, rfl⟩ := Prod.mk.inj (Option.some.inj h)
    exact ⟨hout.coherent, hout.evolves, hab.target ▸ hout.coherent.outcomes a.name b o hb ho,
      b, o, hb, ho⟩
  | none =>
    rw [ho] at h
    have hself : (T2.decided a.name (.resolved result)).alias? a.name =
        some { b with outcome := some (.resolved result) } := by
      rw [alias?_decided, hb, Option.map_some, if_pos (alias?_eq_some hb).2]
    have hopen : ∀ c, T2.alias? a.name = some c → c.outcome = none := by
      intro c hc
      rw [hb] at hc
      exact Option.some.inj hc ▸ ho
    have hevolves : T2.Evolves (T2.decided a.name (.resolved result)) := evolves_decided hopen
    -- the alias is told of since everything that its target refers to is
    have htold : (T2.decided a.name (.resolved result)).Told a.name := by
      refine Told.of_develops hout.coherent.wellFormed hevolves.develops (told_of_heard hb ?_)
      rw [hab.target]
      exact hout.heard
    have hyields : T2.Yields b.target result := hab.target ▸ hout.yields
    have hdecided := hout.coherent.decided (o := .resolved result) hb ho hyields (by simp) htold
    have hdone : (T2.decided a.name (.resolved result)).Done a.name := ⟨_, _, hself, rfl⟩
    have hparams : a.params.isEmpty = true := by simp [hT.params a.name a ha]
    rw [hparams] at h
    have hyields' := hdecided.outcomes a.name _ _ hself rfl
    have hfinal := hdecided.rememberReference hself hyields' htold
    obtain ⟨-, hlast⟩ := rememberReference_spec Regime.resolves_building hdecided.wellFormed a.name
      hyields'.has
    obtain ⟨rfl, rfl⟩ := Prod.mk.inj (Option.some.inj h)
    refine ⟨hfinal, (hout.evolves.trans hevolves).trans hlast, ?_, hdone.of_evolves hlast⟩
    rw [← hab.target]
    exact hyields'.of_develops hdecided.wellFormed hlast.develops
      (hevolves.has (hout.coherent.wellFormed.has_target hb))

theorem onChain_iff {key : String} : onChain chain key = true ↔ ∃ l ∈ chain, l.key = key := by
  simp [onChain]

theorem resolveAlias_coherent (hexpand : ExpandCoheres expand) (hT : T.Coherent)
    (htraces : Traces T chain t) (hs : T.shape t = .reference a.name arguments)
    (ha : T.alias? a.name = some a) (h : resolveAlias expand chain a n T = some (r, T1)) :
    T1.Coherent ∧ T.Evolves T1 ∧ T1.Yields a.target r ∧ T1.Done a.name := by
  unfold resolveAlias at h
  cases ho : a.outcome with
  | some o =>
    rw [ho] at h
    obtain ⟨rfl, rfl⟩ := Prod.mk.inj (Option.some.inj h)
    exact ⟨hT, .refl T, hT.outcomes a.name a o ha ho, a, o, ha, ho⟩
  | none =>
    rw [ho] at h
    dsimp only at h
    split at h
    next hon =>
      obtain ⟨l, hl, hkey⟩ := onChain_iff.mp hon
      obtain ⟨hisSome, hspells⟩ := htraces.links l hl
      have hlname : l.name = a.name := by
        obtain ⟨x, hx⟩ := Option.isSome_iff_exists.mp hisSome
        rw [hkey] at hspells
        exact hspells.unique (.inl rfl) (hT.plainName _ x hx) (hT.plainName _ a ha)
      obtain ⟨hcycle, h1, hevolves, hdone⟩ :=
        markCycle_coherent hT htraces hs (by simp [ha]) hl hlname
      rw [hkey] at h1 hevolves hdone
      obtain ⟨rfl, rfl⟩ := Prod.mk.inj (Option.some.inj h)
      have hbad := not_fine_of_cycle hT.wellFormed ha hcycle
      exact ⟨h1, hevolves, .inr ⟨mt (hevolves.develops.fine_iff hT.wellFormed
        (hT.wellFormed.has_target ha)).mp hbad, rfl⟩, hdone⟩
    · exact complete_coherent hexpand hT ha (htraces.push hs ha (.inl rfl)) h

/-- A reference whose alias came to a right answer has this answer. -/
theorem expanded_reference (hs : T.shape t = .reference name arguments)
    (ha : T.alias? name = some a) (hT1 : T1.Coherent) (hevolves : T.Evolves T1)
    (hyields : T1.Yields a.target r) (htold : T1.Told name) : Expanded T t r T1 := by
  obtain ⟨b, hb, hab⟩ := hevolves.develops.alias ha
  have ht : T.Has t := has_of_shape (by rw [hs]; simp)
  have hs1 : T1.shape t = .reference name arguments := (hevolves.shape ht).trans hs
  exact ⟨hT1, hevolves, (yields_reference_iff hs1 hb).mpr (hab.target ▸ hyields),
    heard_reference hs1 (exposed_of_alias hs1 hb) fun _ => htold⟩

theorem instantiate_coherent (hexpand : ExpandCoheres expand) (hT : T.Coherent)
    (htraces : Traces T chain t) (hs : T.shape t = .reference name arguments)
    (hexposed : T.exposed t = [])
    (h : instantiate expand chain t name arguments n T = some (r, T1)) : Expanded T t r T1 := by
  have ht : T.Has t := has_of_shape (by rw [hs]; simp)
  unfold instantiate at h
  rw [Typing.get_bind] at h
  cases hlook : T.instances.lookup t with
  | some u =>
    rw [hlook] at h
    obtain ⟨rfl, rfl⟩ := Prod.mk.inj (Option.some.inj h)
    obtain ⟨-, hyields, hheard⟩ := hT.instances t u hlook
    exact ⟨hT, .refl _, hyields, hheard⟩
  | none =>
  cases ha : T.alias? name with
  | none =>
    rw [hlook, ha] at h
    obtain ⟨rfl, rfl⟩ := Prod.mk.inj (Option.some.inj h)
    exact ⟨hT, .refl _, yields_missing (.inr ⟨name, arguments, hs, ha, hexposed⟩),
      heard_reference hs hexposed (by simp [ha])⟩
  | some a =>
  rw [hlook, ha] at h
  dsimp only at h
  have hisSome : (T.alias? name).isSome = true := by simp [ha]
  have hname := (alias?_eq_some ha).2
  have hmark : ∀ l ∈ chain, l.name = name →
      (do markCycle chain l.key; return .invalid : Typing Ty) n T = some (r, T1) →
      Expanded T t r T1 := by
    intro l hl hlname hrun
    obtain ⟨hcycle, h1, hevolves, hdone⟩ := markCycle_coherent hT htraces hs hisSome hl hlname
    obtain ⟨rfl, rfl⟩ := Prod.mk.inj (Option.some.inj hrun)
    have hbad := not_fine_of_cycle hT.wellFormed ha hcycle
    refine expanded_reference hs ha h1 hevolves (.inr ⟨mt (hevolves.develops.fine_iff hT.wellFormed
      (hT.wellFormed.has_target ha)).mp hbad, rfl⟩) (h1.told name hdone)
  have hspells : SpellsName name (T.text t) := by
    obtain ⟨k, e, rfl, he, hshape⟩ := exists_entry hs (by simp) (by simp)
    have htext : T.text (.made k) = e.text := by simp [text, he]
    rw [htext]
    exact hT.spelled k e name arguments he hshape
  split at h
  next hinvalid =>
    obtain ⟨o, ho, houtcome⟩ := Option.map_eq_some_iff.mp hinvalid
    obtain ⟨rfl, rfl⟩ := Prod.mk.inj (Option.some.inj h)
    exact expanded_reference hs ha hT (.refl _) (houtcome ▸ hT.outcomes name a o ha ho)
      (hT.told name ⟨a, o, ha, ho⟩)
  split at h
  next hon =>
    obtain ⟨l, hl, hkey⟩ := onChain_iff.mp hon
    obtain ⟨hisSome', hlspells⟩ := htraces.links l hl
    obtain ⟨x, hx⟩ := Option.isSome_iff_exists.mp hisSome'
    rw [hkey] at hlspells
    rw [← hkey] at h
    exact hmark l hl (hlspells.unique hspells (hT.plainName _ x hx) (hT.plainName _ a ha)) h
  split at h
  next hlimit =>
    obtain ⟨l, hl⟩ : ∃ l, (chain.filter (·.name = name)).head? = some l := by
      cases hown : chain.filter (·.name = name) with
      | nil => simp [hown, nestingLimit] at hlimit
      | cons l rest => exact ⟨l, rfl⟩
    have hmem := List.mem_filter.mp (List.mem_of_head? hl)
    rw [hl] at h
    exact hmark l hmem.1 (by simpa using hmem.2) h
  · -- without parameters there is nothing to substitute
    have hsubs : (liftM (bindArguments a.params arguments []) : Typing Substitution) n T =
        some ([], T) := by
      rw [hT.params name a ha]
      rfl
    have htarget : (liftM (a.target.substitute []) : Typing Ty) n T = some (a.target, T) := rfl
    rw [Typing.bind_of_some hsubs, Typing.bind_of_some htarget] at h
    obtain ⟨result, T2, hexp, h⟩ := Typing.bind_some h
    have hout := hexpand _ T a.target n result T2 hT (hT.wellFormed.has_target ha)
      (htraces.push hs ha hspells) hexp
    obtain ⟨b, hb, hab⟩ := hout.evolves.develops.alias ha
    have htold : T2.Told name := told_of_heard hb (hab.target ▸ hout.heard)
    have hexpanded := expanded_reference hs ha hout.coherent hout.evolves hout.yields htold
    have hfinal := hout.coherent.remembered (hout.evolves.has ht) hexpanded.yields hexpanded.heard
    obtain ⟨rfl, rfl⟩ := Prod.mk.inj (Option.some.inj h)
    have hlast := evolves_remembered T2 t result
    refine expanded_reference hs ha hfinal (hout.evolves.trans hlast) ?_
      (htold.of_develops hout.coherent.wellFormed hlast.develops)
    exact hout.yields.of_develops hout.coherent.wellFormed hlast.develops
      (hout.evolves.has (hT.wellFormed.has_target ha))

/-- The members of a type are expanded one after the other. -/
theorem mapM_coherent {f : Ty → Typing Ty} (ms : List Ty) (hT : T.Coherent)
    (hms : ∀ m ∈ ms, T.Has m)
    (hf : ∀ m ∈ ms, ∀ T' r T'', T'.Coherent → T.Evolves T' → f m n T' = some (r, T'') →
      Expanded T' m r T'') (h : ms.mapM f n T = some (rs, T1)) :
    T1.Coherent ∧ T.Evolves T1 ∧ List.Forall₂ T1.Yields ms rs ∧ ∀ m ∈ ms, T1.Heard m := by
  induction ms generalizing T rs with
  | nil =>
    obtain ⟨rfl, rfl⟩ := Prod.mk.inj (Option.some.inj h)
    exact ⟨hT, .refl T, .nil, by simp⟩
  | cons m ms ih =>
    rw [List.mapM_cons] at h
    obtain ⟨r, T2, hr, h⟩ := Typing.bind_some h
    have hout := hf m (by simp) T r T2 hT (.refl T) hr
    obtain ⟨us, T3, hus, h⟩ := Typing.bind_some h
    obtain ⟨rfl, rfl⟩ := Prod.mk.inj (Option.some.inj h)
    obtain ⟨h3, hevolves, hyields, hheard⟩ := ih hout.coherent
      (fun k hk => hout.evolves.has (hms k (List.mem_cons_of_mem _ hk)))
      (fun k hk T' r' T'' hT' h' => hf k (List.mem_cons_of_mem _ hk) T' r' T'' hT'
        (hout.evolves.trans h')) hus
    have hm2 := hout.evolves.has (hms m (by simp))
    refine ⟨h3, hout.evolves.trans hevolves, .cons ?_ hyields, ?_⟩
    · exact hout.yields.of_develops hout.coherent.wellFormed hevolves.develops hm2
    · intro k hk
      rcases List.mem_cons.mp hk with rfl | hk
      · exact hout.heard.of_develops hout.coherent.wellFormed hevolves.develops hm2
      · exact hheard k hk

theorem has_of_yields (h : List.Forall₂ T.Yields ms rs) : ∀ r ∈ rs, T.Has r := by
  induction h with
  | nil => simp
  | cons hm _ ih => simpa using ⟨hm.has, ih⟩

/-- A union or an intersection is put together of the expansions of its members. -/
theorem gathered_coherent {build : List Ty → Interning Ty}
    (hexpand : ExpandCoheres expand) (hT : T.Coherent) (ht : T.Has t) (htraces : Traces T chain t)
    (hexposed : T.exposed t = ms) (href : ∀ name arguments, T.shape t ≠ .reference name arguments)
    (hbuild : ∀ rs, Interning.Constructs (build rs))
    (hsettles : ∀ (T' : Table) rs, T'.WellFormed → (∀ r ∈ rs, T'.Has r) →
      Interning.Settles T' (build rs) Table.Has)
    (hyields : ∀ (T' : Table) rs r T'', T'.WellFormed → T'.shape t = T.shape t →
      List.Forall₂ T'.Yields ms rs → build rs T' = (r, T'') → T''.Yields t r)
    (h : (do build (← ms.mapM (expand chain)) : Typing Ty) n T = some (r, T1)) :
    Expanded T t r T1 := by
  have hms : ∀ m ∈ ms, m ∈ T.exposed t := fun m hm => hexposed ▸ hm
  have hhas : ∀ m ∈ ms, T.Has m := fun m hm =>
    hT.wellFormed.has_part ht (mem_parts_of_exposed (hms m hm))
  obtain ⟨rs, T2, hmap, h⟩ := Typing.bind_some h
  obtain ⟨h2, hevolves, hrs, hheard⟩ := mapM_coherent ms hT hhas
    (fun m hm T' r' T'' hT' h' hrun => hexpand chain T' m n r' T'' hT' (h'.has (hhas m hm))
      ((htraces.exposed (hms m hm)).of_develops hT.wellFormed h'.develops) hrun) hmap
  obtain ⟨r', T', hat, -⟩ := hsettles T2 rs h2.wellFormed (has_of_yields hrs)
  obtain ⟨rfl, rfl⟩ : r' = r ∧ T' = T1 := Prod.mk.inj (hat.result.symm.trans (Option.some.inj h))
  have hadds := Evolves.of_adds hat.adds
  refine ⟨h2.settlesAt hat (hbuild rs), hevolves.trans hadds,
    hyields T2 rs r' T' h2.wellFormed (hevolves.shape ht) hrs hat.result, ?_⟩
  have hall := hevolves.trans hadds
  refine heard_of_exposed ?_ ?_
  · intro name arguments hs
    rw [hall.shape ht] at hs
    exact absurd hs (href name arguments)
  · intro m hm
    rw [hall.develops.exposed ht, hexposed] at hm
    exact (hheard m hm).of_develops h2.wellFormed hadds.develops (hevolves.has (hhas m hm))

/-- A readonly type is made of the expansion of its argument. -/
theorem readonly_coherent (hexpand : ExpandCoheres expand) (hT : T.Coherent)
    (htraces : Traces T chain t) {argument : Ty}
    (hs : T.shape t = .reference readonlyName [argument])
    (hnone : T.alias? readonlyName = none) {depth : Nat}
    (h : (do Ty.readonlyAt pure depth (← expand chain argument) : Typing Ty) n T = some (r, T1)) :
    Expanded T t r T1 := by
  have ht : T.Has t := has_of_shape (by rw [hs]; simp)
  have hexposed : T.exposed t = [argument] := by simp [exposed, hs, hnone]
  have hmem : argument ∈ T.exposed t := by simp [hexposed]
  have hargument := hT.wellFormed.has_part ht (mem_parts_of_exposed hmem)
  obtain ⟨u, T2, hu, h⟩ := Typing.bind_some h
  have hout := hexpand chain T argument n u T2 hT hargument (htraces.exposed hmem) hu
  obtain ⟨hT1, hadds, -, -⟩ := Ty.readonlyAt_repeats hout.coherent.wellFormed hout.yields.has h
  have hconstructs := Ty.constructs_readonlyAt depth u
  have hinstances : T1.instances = T2.instances := by
    rw [hconstructs.takeOver h]
    rfl
  have h1 : T1.Coherent := hout.coherent.of_aliases hT1
    (hconstructs.spelled n T2 r T1 h hout.coherent.spelled)
    (.of_le hadds.le) hadds.le.aliases hinstances
  have hall := hout.evolves.trans (.of_adds hadds)
  refine ⟨h1, hall, ?_, heard_of_exposed ?_ ?_⟩
  · exact yields_readonly hout.coherent.wellFormed ((hout.evolves.shape ht).trans hs)
      ((hout.evolves.develops.none_iff _).mpr hnone) hout.yields h
  · intro name arguments hs'
    rw [hall.shape ht, hs] at hs'
    obtain ⟨rfl, -⟩ := Shape.reference.inj hs'
    exact (hall.develops.none_iff _).mpr hnone
  · intro m hm
    rw [hall.develops.exposed ht, hexposed, List.mem_singleton] at hm
    subst hm
    exact hout.heard.of_develops hout.coherent.wellFormed (Evolves.of_adds hadds).develops
      (hout.evolves.has hargument)

theorem expandStep_coherent (hexpand : ExpandCoheres expand) (depth : Nat) :
    ExpandCoheres (expandStep expand depth) := by
  intro chain T t n r T1 hT ht htraces h
  unfold expandStep at h
  rw [Typing.get_bind] at h
  cases hs : T.shape t with
  | reference name arguments =>
    rw [hs] at h
    cases ha : T.alias? name with
    | none =>
      rcases arguments with _ | ⟨argument, _ | ⟨second, rest⟩⟩
      · simp only [ha] at h
        exact instantiate_coherent hexpand hT htraces hs (by simp [exposed, hs]) h
      · simp only [ha] at h
        by_cases hname : name = readonlyName
        · subst hname
          rw [if_pos rfl] at h
          exact readonly_coherent hexpand hT htraces hs ha h
        · rw [if_neg hname] at h
          exact instantiate_coherent hexpand hT htraces hs (by simp [exposed, hs, hname]) h
      · simp only [ha] at h
        exact instantiate_coherent hexpand hT htraces hs (by simp [exposed, hs]) h
    | some a =>
      cases arguments with
      | nil =>
        have hname := (alias?_eq_some ha).2
        subst hname
        simp only [ha, hT.params _ a ha, List.isEmpty_nil, if_true] at h
        obtain ⟨h1, hevolves, hyields, hdone⟩ := resolveAlias_coherent hexpand hT htraces hs ha h
        exact expanded_reference hs ha h1 hevolves hyields (h1.told _ hdone)
      | cons first rest =>
        simp only [ha] at h
        exact instantiate_coherent hexpand hT htraces hs (exposed_of_alias hs ha) h
  | union ms =>
    rw [hs] at h
    refine gathered_coherent hexpand hT ht htraces (by simp [exposed, hs]) (by simp [hs])
      Interning.constructs_unionOf (fun T' rs hT' hrs => ?_)
      (fun T' rs r' T'' hT' hs' hrs hrun => ?_) h
    · exact (Interning.settles_unionOf hT' hrs).imp fun _ _ _ _ hv => hv.1
    · exact yields_union hT' (hs'.trans hs) hrs hrun
  | intersection ms =>
    rw [hs] at h
    refine gathered_coherent hexpand hT ht htraces (by simp [exposed, hs]) (by simp [hs])
      Interning.constructs_intersectionOf (fun T' rs hT' hrs => ?_)
      (fun T' rs r' T'' hT' hs' hrs hrun => ?_) h
    · exact (Interning.settles_intersectionOf hT' hrs).imp fun _ _ _ _ hv => hv.1
    · exact yields_intersection hT' (hs'.trans hs) hrs hrun
  | _ =>
    rw [hs] at h
    obtain ⟨rfl, rfl⟩ := Prod.mk.inj (Option.some.inj h)
    exact ⟨hT, .refl T, yields_self ht (by simp [hs]) (by simp [hs]) (by simp [hs]),
      heard_of_exposed (by simp [hs]) (by simp [exposed, hs])⟩

end Steps

/-- **Expansion with a memory is plain expansion**, in every coherent table and along every
chain. -/
theorem expandAt_coherent (d : Nat) : ExpandCoheres (expandAt d) := by
  induction d with
  | zero =>
    intro chain T t n r T1 _ _ _ h
    exact absurd h (by simp [expandAt, Typing.outOfSteps])
  | succ d ih => exact expandStep_coherent ih d

end Expansion

end ShapeCheck
