import KeyedLog.Config.Environment
import KeyedLog.Proofs.Assoc
import Mathlib

/-!
# The order of the environment

What an environment makes of a configuration: each setting is what its own variable says, if that
is there, and each property of the brokers is that of the one variable whose name folds to it. So
the order of the variables does not matter.
-/
namespace KeyedLog

namespace Properties

variable {p q : Properties} {name key value text : String}

theorem lookup_cons (n v : String) (rest : List (String × String)) :
    ((n, v) :: rest).lookup key = if key = n then some v else rest.lookup key := by
  by_cases h : key = n
  · rw [h, List.lookup_cons_self, if_pos rfl]
  · rw [List.lookup_cons, beq_eq_false_iff_ne.mpr h, if_neg h]

theorem lookup_insertOrdered (es : List (String × String)) :
    (insertOrdered name value es).lookup key =
      if key = name then some value else es.lookup key := by
  induction es with
  | nil => exact lookup_cons name value []
  | cons e rest ih =>
    obtain ⟨n, v⟩ := e
    rw [insertOrdered]
    split
    · next heq =>
      rw [← heq, lookup_cons, lookup_cons]
      split <;> rfl
    · next hne =>
      split
      · rw [lookup_cons]
      · rw [lookup_cons, lookup_cons, ih]
        by_cases h : key = n
        · rw [if_pos h, if_pos h, if_neg (fun heq => hne (heq.symm.trans h))]
        · rw [if_neg h, if_neg h]

theorem get?_insert :
    (p.insert name value).get? key = if key = name then some value else p.get? key :=
  lookup_insertOrdered p.entries

theorem nodup_names (p : Properties) : (p.entries.map Prod.fst).Nodup := by
  rw [List.nodup_iff_pairwise_ne, List.pairwise_map]
  refine p.ordered.imp ?_
  intro a b hlt heq
  rw [heq] at hlt
  exact String.lt_irrefl _ hlt

theorem get?_eq (p : Properties) (key : String) : p.get? key = Assoc.get? key p.entries := by
  rw [get?]
  induction p.entries with
  | nil => rfl
  | cons e rest ih => rw [lookup_cons, Assoc.get?, ih]

/-- Properties are told apart by the texts of the names. -/
theorem ext_get? (h : ∀ key, p.get? key = q.get? key) : p = q := by
  have hmem : ∀ e, e ∈ p.entries ↔ e ∈ q.entries := by
    rintro ⟨key, text⟩
    rw [← Assoc.get?_eq_some_iff p.nodup_names, ← Assoc.get?_eq_some_iff q.nodup_names, ← get?_eq,
      ← get?_eq, h]
  have hperm : p.entries.Perm q.entries :=
    (List.perm_ext_iff_of_nodup p.nodup_names.of_map q.nodup_names.of_map).mpr hmem
  have hentries : p.entries = q.entries := by
    refine hperm.eq_of_pairwise (fun a b _ _ hab hba => ?_) p.ordered q.ordered
    exact absurd (String.lt_trans hab hba) (String.lt_irrefl _)
  cases p
  cases q
  cases hentries
  rfl

/-- Properties with those of some pairs set, one after another. -/
def override (p : Properties) (pairs : List (String × String)) : Properties :=
  pairs.foldl (fun p (name, value) => p.insert name value) p

theorem override_cons (n v : String) (rest : List (String × String)) :
    p.override ((n, v) :: rest) = (p.insert n v).override rest := rfl

theorem get?_override {pairs : List (String × String)} (h : (pairs.map Prod.fst).Nodup) :
    (p.override pairs).get? key = (Assoc.get? key pairs).or (p.get? key) := by
  induction pairs generalizing p with
  | nil => rfl
  | cons e rest ih =>
    obtain ⟨n, v⟩ := e
    obtain ⟨hnot, hrest⟩ := List.nodup_cons.mp h
    rw [override_cons, ih hrest, get?_insert, Assoc.get?]
    by_cases hkey : key = n
    · have hnone : Assoc.get? key rest = none := Assoc.get?_eq_none_iff.mpr (hkey ▸ hnot)
      rw [if_pos hkey, if_pos hkey, hnone]
      rfl
    · rw [if_neg hkey, if_neg hkey]

theorem override_perm {pairs others : List (String × String)} (h : (pairs.map Prod.fst).Nodup)
    (hperm : pairs.Perm others) : p.override others = p.override pairs := by
  have hothers : (others.map Prod.fst).Nodup := (hperm.map Prod.fst).nodup_iff.mp h
  apply ext_get?
  intro key
  rw [get?_override hothers, get?_override h, Assoc.get?_perm h hperm]

end Properties

/-- A variable with its value. -/
abbrev Variable := String × String

namespace Config

variable {c c' : Config} {vars others : List Variable}

/-- Whether a variable is one for the brokers: its name is in their family but not in that of the
schema registry, and its value is not empty. -/
def PassedOn (v : Variable) : Prop :=
  Setting.belongsTo Setting.brokerFamily v.1 ∧ ¬Setting.belongsTo Setting.registryFamily v.1 ∧
    v.2 ≠ ""

instance : DecidablePred PassedOn := fun _ => inferInstanceAs (Decidable (_ ∧ _ ∧ _))

/-- The property that a variable for the brokers sets. -/
def property (v : Variable) : String × String := (Setting.propertyName v.1, v.2)

/-- The properties that an environment sets. -/
def passedOn (vars : List Variable) : List (String × String) :=
  (vars.filter PassedOn).map property

/-- Whether the value of a variable can be read. All but three can be whatever they are. -/
def Readable (v : Variable) : Prop :=
  (v.1 = Setting.listen → ∃ address, SocketAddress.ofText? (Text.trim v.2) = some address) ∧
    (v.1 = Setting.broker → ∃ kind, BrokerKind.ofText v.2 = .ok kind) ∧
      (v.1 = Setting.registryTimeout → ∃ time, Decimal.readU64 (Text.trim v.2) = .ok time)

/-- What a setting becomes: what its variable says, if that is there and says anything. -/
def setBy {α : Type} (vars : List Variable) (name : String) (read : String → Option α) (old : α) :
    α :=
  ((Assoc.get? name vars).bind read).getD old

/-- The configuration with every setting that its variable overrides. -/
def overridden (c : Config) (vars : List Variable) : Config :=
  { c with
    topic := setBy vars Setting.topic (some ∘ Text.trim) c.topic
    listen := setBy vars Setting.listen (SocketAddress.ofText? ∘ Text.trim) c.listen
    reads := setBy vars Setting.disableRead (fun v => some !isTrue v) c.reads
    writes := setBy vars Setting.disableWrite (fun v => some !isTrue v) c.writes
    storage := {
      backend := setBy vars Setting.backend
        (fun v => some ((Backend.ofText v).toOption.getD .sqlite)) c.storage.backend
      location := setBy vars Setting.location
        (fun v => some ((Text.nonBlank? v).map Text.trim)) c.storage.location
      password := setBy vars Setting.password (some ∘ Text.nonBlank?) c.storage.password }
    encryption := {
      enabled := setBy vars Setting.encrypt (some ∘ isTrue) c.encryption.enabled
      key := setBy vars Setting.key (some ∘ Text.nonBlank?) c.encryption.key
      keyFile := setBy vars Setting.keyLocation (some ∘ Text.nonBlank?) c.encryption.keyFile }
    broker := {
      kind := setBy vars Setting.broker (fun v => (BrokerKind.ofText v).toOption.map some)
        c.broker.kind
      properties := c.broker.properties.override (passedOn vars) }
    registry := {
      url := setBy vars Setting.registryUrl (some ∘ Text.nonBlank?) c.registry.url
      timeout := setBy vars Setting.registryTimeout
        (fun v => (Decimal.readU64 (Text.trim v)).toOption) c.registry.timeout } }

theorem setBy_cons {α : Type} {n v : String} {rest : List Variable}
    (hnot : n ∉ rest.map Prod.fst) (name : String) (read : String → Option α) (old : α) :
    setBy ((n, v) :: rest) name read old = setBy rest name read (setBy [(n, v)] name read old) := by
  simp only [setBy, Assoc.get?]
  by_cases hname : name = n
  · have hnone : Assoc.get? name rest = none := Assoc.get?_eq_none_iff.mpr (hname ▸ hnot)
    rw [if_pos hname, if_pos hname, hnone]
    rfl
  · rw [if_neg hname, if_neg hname]
    rfl

theorem setBy_perm {α : Type} (hnames : (vars.map Prod.fst).Nodup) (hperm : vars.Perm others)
    (name : String) (read : String → Option α) (old : α) :
    setBy others name read old = setBy vars name read old := by
  rw [setBy, Assoc.get?_perm hnames hperm, setBy]

theorem passedOn_cons (v : Variable) (rest : List Variable) :
    passedOn (v :: rest) = passedOn [v] ++ passedOn rest := by
  rw [← List.singleton_append, passedOn, List.filter_append, List.map_append]
  rfl

/-- Variables override one after another. -/
theorem overridden_cons {n v : String} {rest : List Variable} (hnot : n ∉ rest.map Prod.fst) :
    c.overridden ((n, v) :: rest) = (c.overridden [(n, v)]).overridden rest := by
  simp only [overridden, setBy_cons hnot, passedOn_cons (n, v) rest, Properties.override,
    List.foldl_append]

theorem setBy_of_ne {α : Type} {n name : String} (h : name ≠ n) (v : String)
    (read : String → Option α) (old : α) : setBy [(n, v)] name read old = old := by
  rw [setBy, Assoc.get?, if_neg h]
  rfl

/-- The names of the variables that are settings of their own, those first that can be refused. -/
def named : List String :=
  [Setting.listen, Setting.broker, Setting.registryTimeout, Setting.topic, Setting.backend,
    Setting.location, Setting.password, Setting.encrypt, Setting.key, Setting.keyLocation,
    Setting.disableWrite, Setting.disableRead, Setting.registryUrl]

/-- A setting of its own is not passed on: its name is not one for the brokers, or it is one of the
schema registry. -/
theorem not_passedOn_of_named {v : Variable} (h : v.1 ∈ named) : ¬PassedOn v := by
  have hfamily : ∀ n ∈ named, Setting.belongsTo Setting.brokerFamily n →
      Setting.belongsTo Setting.registryFamily n := by decide
  exact fun hpassed => hpassed.2.1 (hfamily v.1 h hpassed.1)

theorem passedOn_named {n : String} (h : n ∈ named) (v : String) : passedOn [(n, v)] = [] := by
  rw [passedOn, List.filter_cons_of_neg]
  · rfl
  · rw [decide_eq_true_iff]
    exact not_passedOn_of_named h

/-- A setting of its own overrides just that setting. -/
theorem applyVariable_named {n v : String} (hn : n ∈ named) (h : Readable (n, v)) :
    c.applyVariable n v = .ok (c.overridden [(n, v)]) := by
  have hproperties : c.broker.properties.override [] = c.broker.properties := rfl
  rw [overridden, passedOn_named hn, hproperties]
  obtain ⟨hlisten, hbroker, htimeout⟩ := h
  simp only [named, List.mem_cons, List.not_mem_nil, or_false] at hn
  rcases hn with rfl | rfl | rfl | rfl | rfl | rfl | rfl | rfl | rfl | rfl | rfl | rfl | rfl
  case' inl => obtain ⟨address, hread⟩ := hlisten rfl
  case' inr.inl => obtain ⟨kind, hread⟩ := hbroker rfl
  case' inr.inr.inl => obtain ⟨time, hread⟩ := htimeout rfl
  all_goals
    simp [applyVariable, setBy, Assoc.get?, Setting.topic, Setting.backend, Setting.location,
      Setting.password, Setting.encrypt, Setting.key, Setting.keyLocation, Setting.disableWrite,
      Setting.disableRead, Setting.listen, Setting.broker, Setting.registryUrl,
      Setting.registryTimeout, Except.map, Except.toOption, *]

/-- Any other variable is passed on to the brokers, or it overrides nothing. -/
theorem applyVariable_unnamed {n v : String} (hn : n ∉ named) :
    c.applyVariable n v = .ok (c.overridden [(n, v)]) := by
  have happlied : c.applyVariable n v = .ok { c with
      broker.properties := c.broker.properties.override (passedOn [(n, v)]) } := by
    simp only [named, List.mem_cons, not_or] at hn
    simp only [applyVariable, hn, if_false]
    by_cases hpassed : PassedOn (n, v)
    · obtain ⟨hbroker, hregistry, hvalue⟩ := id hpassed
      rw [if_neg hregistry, if_pos ⟨hbroker, hvalue⟩, passedOn, List.filter_cons_of_pos]
      · rfl
      · exact decide_eq_true hpassed
    · have hnone : passedOn [(n, v)] = [] := by
        rw [passedOn, List.filter_cons_of_neg]
        · rfl
        · rwa [decide_eq_true_iff]
      rw [hnone]
      split
      · rfl
      · next hregistry =>
        rw [if_neg fun h => hpassed ⟨h.1, hregistry, h.2⟩]
        rfl
  have hset : ∀ {α : Type} (read : String → Option α) (old : α), ∀ name ∈ named,
      setBy [(n, v)] name read old = old := by
    intro α read old name hname
    refine setBy_of_ne ?_ v read old
    rintro rfl
    exact hn hname
  simp only [named, List.forall_mem_cons] at hset
  simp only [happlied, overridden, hset]

theorem readable_of_applyVariable {n v : String} (h : c.applyVariable n v = .ok c') :
    Readable (n, v) := by
  refine ⟨?_, ?_, ?_⟩
  all_goals
    simp only
    rintro rfl
    simp only [applyVariable, Setting.topic, Setting.backend, Setting.location, Setting.password,
      Setting.encrypt, Setting.key, Setting.keyLocation, Setting.disableWrite, Setting.disableRead,
      Setting.listen, Setting.broker, Setting.registryUrl, Setting.registryTimeout,
      String.reduceEq, if_true, if_false] at h
  · cases haddress : SocketAddress.ofText? (Text.trim v) with
    | some address => exact ⟨address, rfl⟩
    | none => simp only [haddress, reduceCtorEq] at h
  · cases hkind : BrokerKind.ofText v with
    | ok kind => exact ⟨kind, rfl⟩
    | error e => simp only [hkind, Except.map, reduceCtorEq] at h
  · cases htime : Decimal.readU64 (Text.trim v) with
    | ok time => exact ⟨time, rfl⟩
    | error refusal => simp only [htime, reduceCtorEq] at h

theorem applyVariable_ok (c : Config) {n v : String} (h : Readable (n, v)) :
    c.applyVariable n v = .ok (c.overridden [(n, v)]) := by
  by_cases hn : n ∈ named
  · exact applyVariable_named hn h
  · exact applyVariable_unnamed hn

theorem applyEnvironment_cons (n v : String) (rest : List Variable) :
    c.applyEnvironment ((n, v) :: rest) =
      (c.applyVariable n v).bind fun next => next.applyEnvironment rest := by
  rw [applyEnvironment, applyAll]
  cases c.applyVariable n v <;> rfl

/-- An environment whose names are distinct is applied if all its values can be read, and then each
variable overrides what it names. -/
theorem applyEnvironment_eq_ok_iff (hnames : (vars.map Prod.fst).Nodup) :
    c.applyEnvironment vars = .ok c' ↔ (∀ v ∈ vars, Readable v) ∧ c.overridden vars = c' := by
  induction vars generalizing c with
  | nil =>
    have hnil : c.overridden [] = c := rfl
    rw [hnil, applyEnvironment, applyAll, Except.ok.injEq]
    simp only [List.not_mem_nil, false_imp_iff, implies_true, true_and]
  | cons v rest ih =>
    obtain ⟨n, v⟩ := v
    obtain ⟨hnot, hrest⟩ := List.nodup_cons.mp hnames
    rw [applyEnvironment_cons, overridden_cons hnot, List.forall_mem_cons]
    cases happly : c.applyVariable n v with
    | ok next =>
      have hreadable := readable_of_applyVariable happly
      rw [applyVariable_ok c hreadable, Except.ok.injEq] at happly
      subst happly
      simp only [Except.bind, ih hrest, hreadable, true_and]
    | error e =>
      have hunreadable : ¬Readable (n, v) := by
        intro hreadable
        rw [applyVariable_ok c hreadable] at happly
        cases happly
      simp only [Except.bind, hunreadable, false_and, reduceCtorEq]

/-- Variables whose names differ, and which fold to different properties if they are passed on. -/
structure Distinct (vars : List Variable) : Prop where
  names : (vars.map Prod.fst).Nodup
  properties : ∀ v ∈ vars, ∀ w ∈ vars, PassedOn v → PassedOn w →
    Setting.propertyName v.1 = Setting.propertyName w.1 → v.1 = w.1

namespace Distinct

theorem nodup_passedOn (h : Distinct vars) : ((passedOn vars).map Prod.fst).Nodup := by
  rw [passedOn, List.map_map]
  refine (h.names.of_map.filter _).map_on ?_
  intro v hv w hw heq
  obtain ⟨hv, hvpassed⟩ := List.mem_filter.mp hv
  obtain ⟨hw, hwpassed⟩ := List.mem_filter.mp hw
  have hname := h.properties v hv w hw (of_decide_eq_true hvpassed) (of_decide_eq_true hwpassed) heq
  exact List.inj_on_of_nodup_map h.names hv hw hname

theorem overridden_perm (h : Distinct vars) (hperm : vars.Perm others) :
    c.overridden others = c.overridden vars := by
  have hpassed : (passedOn vars).Perm (passedOn others) := (hperm.filter _).map _
  simp only [overridden, setBy_perm h.names hperm,
    Properties.override_perm h.nodup_passedOn hpassed]

/-- The properties of the brokers are those of the variables that are passed on, and where no such
variable folds to a name, what there was. -/
theorem get?_overridden (h : Distinct vars) (key text : String) :
    (c.overridden vars).broker.properties.get? key = some text ↔
      (∃ v ∈ vars, PassedOn v ∧ property v = (key, text)) ∨
        (∀ v ∈ vars, PassedOn v → Setting.propertyName v.1 ≠ key) ∧
          c.broker.properties.get? key = some text := by
  have hget : (c.overridden vars).broker.properties.get? key =
      (Assoc.get? key (passedOn vars)).or (c.broker.properties.get? key) :=
    Properties.get?_override h.nodup_passedOn
  have hsome : Assoc.get? key (passedOn vars) = some text ↔
      ∃ v ∈ vars, PassedOn v ∧ property v = (key, text) := by
    rw [Assoc.get?_eq_some_iff h.nodup_passedOn, passedOn, List.mem_map]
    simp only [List.mem_filter, decide_eq_true_eq, and_assoc]
  have hnone : Assoc.get? key (passedOn vars) = none ↔
      ∀ v ∈ vars, PassedOn v → Setting.propertyName v.1 ≠ key := by
    rw [Assoc.get?_eq_none_iff, passedOn, List.map_map]
    simp only [List.mem_map, List.mem_filter, decide_eq_true_eq, not_exists, not_and, and_imp]
    rfl
  rw [hget, Option.or_eq_some_iff, hsome, hnone]

end Distinct

/-- What is in the family of the schema registry sets no property of the brokers. -/
theorem passedOn_outside (vars : List Variable) :
    passedOn (vars.filter fun v => ¬Setting.belongsTo Setting.registryFamily v.1) =
      passedOn vars := by
  rw [passedOn, List.filter_filter, passedOn]
  congr 2
  funext v
  by_cases hpassed : PassedOn v
  · simp [hpassed, hpassed.2.1]
  · simp [hpassed]

/-- If the names of an environment differ, and no two of its variables for the brokers fold to one
property, then it is applied in all orders alike or in none; it is applied if the values that need
to be read can be, and gives each setting what its own variable says. The properties of the brokers
are then overridden by just the variables that are passed on, which no variable of the schema
registry is. -/
theorem order_immaterial (c : Config) (vars : List Variable) (h : Distinct vars) :
    (∀ others, vars.Perm others → ∀ c',
      c.applyEnvironment others = .ok c' ↔ c.applyEnvironment vars = .ok c') ∧
    ((∃ c', c.applyEnvironment vars = .ok c') ↔ ∀ v ∈ vars, Readable v) ∧
    ∀ c', c.applyEnvironment vars = .ok c' → c' = c.overridden vars ∧
      (∀ key text, c'.broker.properties.get? key = some text ↔
        (∃ v ∈ vars, PassedOn v ∧ property v = (key, text)) ∨
          (∀ v ∈ vars, PassedOn v → Setting.propertyName v.1 ≠ key) ∧
            c.broker.properties.get? key = some text) ∧
      ∃ c'', c.applyEnvironment
          (vars.filter fun v => ¬Setting.belongsTo Setting.registryFamily v.1) = .ok c'' ∧
        c''.broker.properties = c'.broker.properties := by
  refine ⟨?_, ?_, ?_⟩
  · intro others hperm c'
    have hothers : (others.map Prod.fst).Nodup := (hperm.map Prod.fst).nodup_iff.mp h.names
    rw [applyEnvironment_eq_ok_iff h.names, applyEnvironment_eq_ok_iff hothers,
      h.overridden_perm hperm]
    simp only [hperm.mem_iff]
  · simp only [applyEnvironment_eq_ok_iff h.names, exists_and_left, exists_eq', and_true]
  · intro c' happly
    obtain ⟨hreadable, rfl⟩ := (applyEnvironment_eq_ok_iff h.names).mp happly
    refine ⟨rfl, h.get?_overridden, _, (applyEnvironment_eq_ok_iff ?_).mpr ⟨?_, rfl⟩, ?_⟩
    · exact h.names.sublist (List.filter_sublist.map Prod.fst)
    · exact fun v hv => hreadable v (List.mem_of_mem_filter hv)
    · exact congrArg c.broker.properties.override (passedOn_outside vars)

/-- Of two variables that fold to one property only one has a value. -/
def foldedVariables : List Variable :=
  [("KAFKA_SASL_MECHANISM", ""), ("KAFKA_BOOTSTRAP_SERVERS", "broker:9092"),
    ("KV_API_BROKER", " Memory "), ("KAFKA_SCHEMA_REGISTRY_URL", "http://registry:8081"),
    ("KAFKA_SCHEMA_REGISTRY_MAX_CACHED_SCHEMAS", "10"), ("KAFKA_sasl_mechanism", "PLAIN"),
    ("KV_API_KAFKA_KEY_VALUE_TOPIC", " kv "), ("KV_API_STATE_STORAGE_DISK_LOCATION", " ")]

theorem passedOn_foldedVariables : passedOn foldedVariables =
    [("bootstrap.servers", "broker:9092"), ("sasl.mechanism", "PLAIN")] := by
  cbv

theorem order_immaterial_folded :
    Distinct foldedVariables ∧ ∃ c', ({} : Config).applyEnvironment foldedVariables = .ok c' ∧
      ({} : Config).applyEnvironment foldedVariables.reverse = .ok c' ∧
      c' = ({} : Config).overridden foldedVariables ∧ c'.topic = "kv" ∧
      c'.registry.url = some "http://registry:8081" ∧ c'.broker.properties.entries =
        [("bootstrap.servers", "broker:9092"), ("sasl.mechanism", "PLAIN")] := by
  have hdistinct : Distinct foldedVariables := ⟨by decide, by decide +kernel⟩
  have hreadable : ∀ v ∈ foldedVariables, Readable v := by
    have hbroker : ∀ v ∈ foldedVariables, v.1 = Setting.broker → v.2 = " Memory " := by decide
    have hnever : ∀ v ∈ foldedVariables,
        v.1 ≠ Setting.listen ∧ v.1 ≠ Setting.registryTimeout := by decide
    intro v hv
    refine ⟨fun h => absurd h (hnever v hv).1, fun h => ⟨.memory, ?_⟩,
      fun h => absurd h (hnever v hv).2⟩
    rw [hbroker v hv h]
    cbv
  obtain ⟨hperm, hok, hsets⟩ := order_immaterial {} foldedVariables hdistinct
  obtain ⟨c', happly⟩ := hok.mpr hreadable
  obtain ⟨hc', -, -⟩ := hsets c' happly
  refine ⟨hdistinct, c', happly, ?_, hc', ?_⟩
  · exact (hperm _ (List.reverse_perm _).symm c').mpr happly
  · rw [hc']
    have htopic : Assoc.get? Setting.topic foldedVariables = some " kv " := by
      simp [Assoc.get?, foldedVariables, Setting.topic]
    have hurl : Assoc.get? Setting.registryUrl foldedVariables =
        some "http://registry:8081" := by
      simp [Assoc.get?, foldedVariables, Setting.registryUrl]
    simp only [overridden, passedOn_foldedVariables, setBy, htopic, hurl, Option.bind_some,
      Function.comp_apply, Option.getD_some]
    refine ⟨by decide, by decide, ?_⟩
    cbv

end Config

end KeyedLog
