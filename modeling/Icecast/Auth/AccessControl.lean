import Icecast.Admin.Dispatch
import Icecast.Auth.ConfigParser
import Icecast.Lib.RuleList
import Mathlib.Data.List.Infix

/-!
# Access control lists

How an ACL is built (`acl.c`): a fresh one first, then the attributes of the role's element in their
order. An attribute for methods or for admin commands holds a list; its items are applied one after
the other until one is refused, and what has been applied until then stays.

The policies of the methods are kept in an array, those of the admin commands in a table of exceptions
with a default. The last directive about a method decides. For an admin command that is so only if
no earlier exception is left in its way (`admin_policy_last_directive`).
-/

namespace Icecast.Auth

open Admin (adminGetCommand)
open Lib.Decimal Lib.RuleList

/-! ## Lists of items -/

/-- The texts between the commas, without the spaces before them. -/
def listItems (text : String) : List String :=
  (text.toList.splitOn ',').map fun item ↦ String.ofList (item.dropWhile (· = ' '))

/-- The loop of `acl_set_ANY_str`. An item has to fit into a buffer of 64 bytes. -/
def setItems (callback : Acl → AclPolicy → String → ℤ × Acl) (policy : AclPolicy) :
    List String → Acl → ℤ × Acl
  | [], acl => (0, acl)
  | item :: items, acl =>
    if 63 < item.utf8ByteSize then (-1, acl)
    else
      let (ret, acl) := callback acl policy item
      if ret ≠ 0 then (ret, acl) else setItems callback policy items acl

def aclSetAnyStr (callback : Acl → AclPolicy → String → ℤ × Acl) (acl : Acl) (policy : AclPolicy)
    (text : String) : ℤ × Acl :=
  if policy = .error then (-1, acl) else setItems callback policy (listItems text) acl

/-- Items that are all taken are applied one after the other. -/
theorem setItems_of_taken {callback : Acl → AclPolicy → String → ℤ × Acl} {policy : AclPolicy}
    {items : List String} {acl : Acl} (hsize : ∀ item ∈ items, item.utf8ByteSize ≤ 63)
    (htaken : ∀ earlier item later, items = earlier ++ item :: later →
      (callback (earlier.foldl (fun acl item ↦ (callback acl policy item).2) acl) policy item).1 = 0) :
    setItems callback policy items acl =
      (0, items.foldl (fun acl item ↦ (callback acl policy item).2) acl) := by
  induction items generalizing acl with
  | nil => rfl
  | cons item items ih =>
    have hfirst : (callback acl policy item).1 = 0 := htaken [] item items rfl
    have hsmall : ¬ 63 < item.utf8ByteSize := Nat.not_lt.mpr (hsize item List.mem_cons_self)
    simp only [setItems, hsmall, if_false, hfirst, ne_eq, not_true_eq_false, List.foldl_cons]
    apply ih
    · intro other hother
      exact hsize other (List.mem_cons_of_mem item hother)
    · intro earlier other later hitems
      exact htaken (item :: earlier) other later (by rw [hitems]; rfl)

/-! ## Methods and admin commands -/

def aclSetMethodStrCallback (strToMethod : String → Option ReqType) (acl : Acl) (policy : AclPolicy)
    (text : String) : ℤ × Acl :=
  if text = "*" then (0, { acl with method := fun _ ↦ policy })
  else
    match strToMethod text with
    | none => (-1, acl)
    | some method =>
      (0, { acl with method := fun other ↦ if other = method then policy else acl.method other })

def aclSetMethodStr (strToMethod : String → Option ReqType) :
    Acl → AclPolicy → String → ℤ × Acl :=
  aclSetAnyStr (aclSetMethodStrCallback strToMethod)

def maxAdminCommands : ℕ := 32

/-- The wildcard is command 0. -/
def aclSetAdminStrCallbck (acl : Acl) (policy : AclPolicy) (text : String) : ℤ × Acl :=
  let command := adminGetCommand text
  if command = -1 then (-1, acl)
  else if command = 0 then
    (0, { acl with
      adminCommandPolicy := policy
      adminCommands := acl.adminCommands.filter fun entry ↦ entry.2 ≠ policy })
  else if acl.adminCommands.length = maxAdminCommands then (-1, acl)
  else (0, { acl with adminCommands := acl.adminCommands ++ [(command, policy)] })

def aclSetAdminStr : Acl → AclPolicy → String → ℤ × Acl := aclSetAnyStr aclSetAdminStrCallbck

/-! ## Fresh lists, and those of an element -/

/-- `acl_t` as a whole. The limit of connections is stored unsigned and read as signed again. -/
structure AclData extends Acl where
  webPolicy : AclPolicy
  maxConnectionDuration : ℤ
  maxConnectionsPerUser : ℤ

def AclData.setMethodStr (strToMethod : String → Option ReqType) (acl : AclData) (policy : AclPolicy)
    (text : String) : AclData :=
  { acl with toAcl := (aclSetMethodStr strToMethod acl.toAcl policy text).2 }

def AclData.setAdminStr (acl : AclData) (policy : AclPolicy) (text : String) : AclData :=
  { acl with toAcl := (aclSetAdminStr acl.toAcl policy text).2 }

/-- `acl_new`, on memory filled with zeros. -/
def aclNew (strToMethod : String → Option ReqType) : AclData :=
  let acl : AclData := ⟨⟨fun _ ↦ .allow, [], .allow⟩, .allow, 0, 0⟩
  let acl := acl.setMethodStr strToMethod .deny "*"
  let acl := acl.setMethodStr strToMethod .allow "get"
  let acl := acl.setAdminStr .deny "*"
  let acl := acl.setAdminStr .allow "buildm3u"
  { acl with webPolicy := .allow, maxConnectionDuration := -1, maxConnectionsPerUser := 0 }

/-- `strcasecmp` against a text in lower case. -/
def equalsIgnoringCase (text word : String) : Bool := text.toList.map Char.toLower = word.toList

def utilStrToBool (text : String) : Bool :=
  equalsIgnoringCase text "true" || equalsIgnoringCase text "yes" || equalsIgnoringCase text "on" ||
    atoi text ≠ 0

/-- Whether the value of `allow-web` and its like stands for yes. -/
def isWildcardOrTrue (value : String) : Bool := '*' ∈ value.toList || utilStrToBool value

def AclData.setAll (strToMethod : String → Option ReqType) (acl : AclData) (policy : AclPolicy) :
    AclData :=
  { (acl.setMethodStr strToMethod policy "*").setAdminStr policy "*" with webPolicy := policy }

/-- What one attribute of the element does. -/
def AclData.setProp (strToMethod : String → Option ReqType) (acl : AclData) (name value : String) :
    AclData :=
  if name = "allow-method" then acl.setMethodStr strToMethod .allow value
  else if name = "deny-method" then acl.setMethodStr strToMethod .deny value
  else if name = "allow-admin" then acl.setAdminStr .allow value
  else if name = "deny-admin" then acl.setAdminStr .deny value
  else if name = "allow-web" then
    { acl with webPolicy := if isWildcardOrTrue value then .allow else .deny }
  else if name = "deny-web" then
    { acl with webPolicy := if isWildcardOrTrue value then .deny else .allow }
  else if name = "allow-all" then
    acl.setAll strToMethod (if isWildcardOrTrue value then .allow else .deny)
  else if name = "deny-all" then
    acl.setAll strToMethod (if isWildcardOrTrue value then .deny else .allow)
  else if name = "connections-per-user" then
    { acl with
      maxConnectionsPerUser := if value = "*" ∨ value = "unlimited" then 0 else atoi value }
  else if name = "connection-duration" then
    { acl with
      maxConnectionDuration := if value = "*" ∨ value = "unlimited" then 0 else atoi value }
  else acl

/-- An attribute of the element, with the value that is found under its name. -/
def RoleNode.applyProp (strToMethod : String → Option ReqType) (node : RoleNode) (acl : AclData)
    (prop : String × String) : AclData :=
  match node.prop prop.1 with
  | none => acl
  | some value => acl.setProp strToMethod prop.1 value

/-- `acl_new_from_xml_node`: the attributes in their order. -/
def aclNewFromXmlNode (strToMethod : String → Option ReqType) (node : RoleNode) : AclData :=
  node.attributes.foldl (node.applyProp strToMethod) (aclNew strToMethod)

/-! ## Sequences of directives -/

/-- An `allow-` or `deny-` directive with its list. -/
inductive Directive where
  | allow (text : String)
  | deny (text : String)

def Directive.policy : Directive → AclPolicy
  | .allow _ => .allow
  | .deny _ => .deny

def Directive.text : Directive → String
  | .allow text => text
  | .deny text => text

/-- The items of the directives, in the order in which they are applied. -/
def directiveItems (directives : List Directive) : List (AclPolicy × String) :=
  directives.flatMap fun directive ↦ (listItems directive.text).map (directive.policy, ·)

def applyDirectives (setStr : Acl → AclPolicy → String → ℤ × Acl) (directives : List Directive)
    (acl : Acl) : Acl :=
  directives.foldl (fun acl directive ↦ (setStr acl directive.policy directive.text).2) acl

/-- The items one by one, whatever the callback says of each. -/
def applyItems (callback : Acl → AclPolicy → String → ℤ × Acl) (items : List (AclPolicy × String))
    (acl : Acl) : Acl :=
  items.foldl (fun acl item ↦ (callback acl item.1 item.2).2) acl

theorem applyItems_append (callback : Acl → AclPolicy → String → ℤ × Acl)
    (items others : List (AclPolicy × String)) (acl : Acl) :
    applyItems callback (items ++ others) acl =
      applyItems callback others (applyItems callback items acl) := by
  exact List.foldl_append

theorem applyItems_map (callback : Acl → AclPolicy → String → ℤ × Acl) (policy : AclPolicy)
    (items : List String) (acl : Acl) :
    applyItems callback (items.map (policy, ·)) acl =
      items.foldl (fun acl item ↦ (callback acl policy item).2) acl := by
  simp [applyItems, List.foldl_map]

/-- Directives whose items are all taken are their items one by one. -/
theorem applyDirectives_eq_applyItems {callback : Acl → AclPolicy → String → ℤ × Acl}
    {directives : List Directive} {acl : Acl}
    (hsize : ∀ item ∈ directiveItems directives, item.2.utf8ByteSize ≤ 63)
    (htaken : ∀ earlier item later, directiveItems directives = earlier ++ item :: later →
      (callback (applyItems callback earlier acl) item.1 item.2).1 = 0) :
    applyDirectives (aclSetAnyStr callback) directives acl =
      applyItems callback (directiveItems directives) acl := by
  induction directives generalizing acl with
  | nil => rfl
  | cons directive directives ih =>
    have hitems : directiveItems (directive :: directives) =
        (listItems directive.text).map (directive.policy, ·) ++ directiveItems directives := rfl
    rw [hitems] at hsize htaken
    have hpolicy : directive.policy ≠ .error := by
      cases directive <;> simp [Directive.policy]
    have hset : aclSetAnyStr callback acl directive.policy directive.text =
        (0, applyItems callback ((listItems directive.text).map (directive.policy, ·)) acl) := by
      rw [aclSetAnyStr, if_neg hpolicy, applyItems_map]
      apply setItems_of_taken
      · intro item hitem
        exact hsize (directive.policy, item)
          (List.mem_append_left _ (List.mem_map.mpr ⟨item, hitem, rfl⟩))
      · intro earlier item later hsplit
        have h := htaken (earlier.map (directive.policy, ·)) (directive.policy, item)
          (later.map (directive.policy, ·) ++ directiveItems directives) (by simp [hsplit])
        rwa [applyItems_map] at h
    have happly : applyDirectives (aclSetAnyStr callback) (directive :: directives) acl =
        applyDirectives (aclSetAnyStr callback) directives
          (aclSetAnyStr callback acl directive.policy directive.text).2 := rfl
    rw [happly, hset, hitems, applyItems_append]
    apply ih
    · intro item hitem
      exact hsize item (List.mem_append_right _ hitem)
    · intro earlier item later hsplit
      have h := htaken ((listItems directive.text).map (directive.policy, ·) ++ earlier) item later
        (by rw [hsplit, List.append_assoc])
      rwa [applyItems_append] at h

/-! ## Methods -/

def methodRule (strToMethod : String → Option ReqType) (item : AclPolicy × String) :
    Rule ReqType AclPolicy :=
  ⟨if item.2 = "*" then none else strToMethod item.2, item.1⟩

theorem aclSetMethodStrCallback_of_known {strToMethod : String → Option ReqType}
    {item : AclPolicy × String} (hknown : item.2 = "*" ∨ (strToMethod item.2).isSome) (acl : Acl) :
    (aclSetMethodStrCallback strToMethod acl item.1 item.2).1 = 0 ∧ ∀ method,
      (aclSetMethodStrCallback strToMethod acl item.1 item.2).2.method method =
        lastWriter (acl.method method) [methodRule strToMethod item] method := by
  unfold aclSetMethodStrCallback
  by_cases hstar : item.2 = "*"
  · simp [hstar, methodRule, lastWriter]
  · obtain ⟨named, hnamed⟩ := Option.isSome_iff_exists.mp (hknown.resolve_left hstar)
    simp only [hstar, if_false, hnamed, true_and]
    intro method
    simp [methodRule, hstar, hnamed, lastWriter, eq_comm]

/-- The last item about a method decides. -/
theorem method_applyItems {strToMethod : String → Option ReqType} {items : List (AclPolicy × String)}
    (hknown : ∀ item ∈ items, item.2 = "*" ∨ (strToMethod item.2).isSome) (acl : Acl)
    (method : ReqType) :
    (applyItems (aclSetMethodStrCallback strToMethod) items acl).method method =
      lastWriter (acl.method method) (items.map (methodRule strToMethod)) method := by
  induction items generalizing acl with
  | nil => rfl
  | cons item items ih =>
    have hitem := (aclSetMethodStrCallback_of_known (hknown item List.mem_cons_self) acl).2 method
    have hrest : ∀ other ∈ items, other.2 = "*" ∨ (strToMethod other.2).isSome :=
      fun other hother ↦ hknown other (List.mem_cons_of_mem item hother)
    calc (applyItems (aclSetMethodStrCallback strToMethod) (item :: items) acl).method method
      _ = (applyItems (aclSetMethodStrCallback strToMethod) items
            (aclSetMethodStrCallback strToMethod acl item.1 item.2).2).method method := rfl
      _ = lastWriter (lastWriter (acl.method method) [methodRule strToMethod item] method)
            (items.map (methodRule strToMethod)) method := by rw [ih hrest, hitem]
      _ = lastWriter (acl.method method) ((item :: items).map (methodRule strToMethod)) method := by
        rw [← lastWriter_append]
        rfl

/-! ## Admin commands -/

def Acl.table (acl : Acl) : Table ℤ AclPolicy := ⟨acl.adminCommands, acl.adminCommandPolicy⟩

theorem aclTestAdmin_some (acl : Acl) (command : ℤ) :
    aclTestAdmin (some acl) command = acl.table.lookup command := by
  simp only [aclTestAdmin, Table.lookup, Acl.table]
  cases acl.adminCommands.find? (·.1 = command) <;> rfl

def adminRule (item : AclPolicy × String) : Rule ℤ AclPolicy :=
  ⟨if adminGetCommand item.2 = 0 then none else some (adminGetCommand item.2), item.1⟩

theorem aclSetAdminStrCallbck_of_known {acl : Acl} (item : AclPolicy × String)
    (hknown : adminGetCommand item.2 ≠ -1) (hroom : acl.adminCommands.length < maxAdminCommands) :
    (aclSetAdminStrCallbck acl item.1 item.2).1 = 0 ∧
      (aclSetAdminStrCallbck acl item.1 item.2).2.table = acl.table.apply (adminRule item) := by
  unfold aclSetAdminStrCallbck
  by_cases hany : adminGetCommand item.2 = 0
  · simp [hany, adminRule, Acl.table, Table.apply]
  · simp [hknown, hany, hroom.ne, adminRule, Acl.table, Table.apply]

/-- A known command has a short name. -/
theorem utf8ByteSize_le_of_adminGetCommand {text : String} (h : adminGetCommand text ≠ -1) :
    text.utf8ByteSize ≤ 63 := by
  unfold adminGetCommand at h
  split at h
  · rename_i i hfound
    obtain ⟨hi, hroute, -⟩ := List.findIdx?_eq_some_iff_getElem.mp hfound
    have hshort : ∀ handler ∈ Admin.handlers, handler.route.utf8ByteSize ≤ 63 := by decide
    have hle := hshort _ (List.getElem_mem hi)
    rwa [of_decide_eq_true hroute] at hle
  · exact absurd rfl h

/-- The table after the items, if it is never full. -/
theorem table_applyItems {items : List (AclPolicy × String)} {acl : Acl}
    (hknown : ∀ item ∈ items, adminGetCommand item.2 ≠ -1)
    (hroom : ∀ earlier, earlier <+: items →
      (applyItems aclSetAdminStrCallbck earlier acl).adminCommands.length < maxAdminCommands) :
    (applyItems aclSetAdminStrCallbck items acl).table = acl.table.run (items.map adminRule) := by
  induction items generalizing acl with
  | nil => rfl
  | cons item items ih =>
    have hfirst : acl.adminCommands.length < maxAdminCommands := hroom [] List.nil_prefix
    have hitem := (aclSetAdminStrCallbck_of_known item (hknown item List.mem_cons_self) hfirst).2
    have hrest := ih (fun other hother ↦ hknown other (List.mem_cons_of_mem item hother))
      fun earlier hearlier ↦ hroom (item :: earlier) (List.prefix_cons_inj item |>.mpr hearlier)
    calc (applyItems aclSetAdminStrCallbck (item :: items) acl).table
      _ = (aclSetAdminStrCallbck acl item.1 item.2).2.table.run (items.map adminRule) := hrest
      _ = acl.table.run ((item :: items).map adminRule) := by
        rw [hitem]
        rfl

/-- Directives about methods have nothing to do with the table. -/
theorem table_aclSetMethodStr (strToMethod : String → Option ReqType) (acl : Acl) (policy : AclPolicy)
    (text : String) : (aclSetMethodStr strToMethod acl policy text).2.table = acl.table := by
  have hcallback : ∀ acl item,
      (aclSetMethodStrCallback strToMethod acl policy item).2.table = acl.table := by
    intro acl item
    unfold aclSetMethodStrCallback
    split
    · rfl
    · split <;> rfl
  have hitems : ∀ items acl,
      (setItems (aclSetMethodStrCallback strToMethod) policy items acl).2.table = acl.table := by
    intro items
    induction items with
    | nil => exact fun _ ↦ rfl
    | cons item items ih =>
      intro acl
      simp only [setItems]
      split_ifs
      · rfl
      · exact hcallback acl item
      · rw [ih, hcallback]
  unfold aclSetMethodStr aclSetAnyStr
  split_ifs
  · rfl
  · exact hitems _ acl

/-- A directive with one command. -/
theorem table_aclSetAdminStr_single {acl : Acl} {policy : AclPolicy} {text : String}
    (hpolicy : policy ≠ .error) (hitems : listItems text = [text])
    (hknown : adminGetCommand text ≠ -1) (hroom : acl.adminCommands.length < maxAdminCommands) :
    (aclSetAdminStr acl policy text).2.table = acl.table.apply (adminRule (policy, text)) := by
  have hsize : ¬ 63 < text.utf8ByteSize :=
    Nat.not_lt.mpr (utf8ByteSize_le_of_adminGetCommand hknown)
  have hcallback : (aclSetAdminStrCallbck acl policy text).1 = 0 ∧
      (aclSetAdminStrCallbck acl policy text).2.table = acl.table.apply (adminRule (policy, text)) :=
    aclSetAdminStrCallbck_of_known (policy, text) hknown hroom
  simpa [aclSetAdminStr, aclSetAnyStr, hpolicy, hitems, setItems, hsize, hcallback.1]
    using hcallback.2

theorem table_aclNew (strToMethod : String → Option ReqType) :
    (aclNew strToMethod).toAcl.table =
      (⟨[], .deny⟩ : Table ℤ AclPolicy).run [adminRule (.allow, "buildm3u")] := by
  let methods := (aclSetMethodStr strToMethod
    (aclSetMethodStr strToMethod ⟨fun _ ↦ .allow, [], .allow⟩ .deny "*").2 .allow "get").2
  have hmethods : methods.table = ⟨[], .allow⟩ := by
    rw [table_aclSetMethodStr, table_aclSetMethodStr]
    rfl
  have hempty : methods.adminCommands = [] := congrArg Table.entries hmethods
  have hany : (aclSetAdminStr methods .deny "*").2.table = ⟨[], .deny⟩ := by
    have hroom : methods.adminCommands.length < maxAdminCommands := by
      simp [hempty, maxAdminCommands]
    rw [table_aclSetAdminStr_single (by decide) (by decide) (by decide) hroom, hmethods]
    rfl
  have hnone : (aclSetAdminStr methods .deny "*").2.adminCommands = [] :=
    congrArg Table.entries hany
  calc (aclNew strToMethod).toAcl.table
    _ = (aclSetAdminStr (aclSetAdminStr methods .deny "*").2 .allow "buildm3u").2.table := rfl
    _ = Table.apply ⟨[], .deny⟩ (adminRule (.allow, "buildm3u")) := by
      rw [table_aclSetAdminStr_single (by decide) (by decide) (by decide) _, hany]
      simp [hnone, maxAdminCommands]

/-- The table of a fresh list does not get full while the items are applied. -/
def NeverFull (strToMethod : String → Option ReqType) (directives : List Directive) : Prop :=
  ∀ earlier, earlier <+: directiveItems directives →
    (applyItems aclSetAdminStrCallbck earlier (aclNew strToMethod).toAcl).adminCommands.length <
      maxAdminCommands

instance (strToMethod : String → Option ReqType) (directives : List Directive) :
    Decidable (NeverFull strToMethod directives) :=
  decidable_of_iff (∀ earlier ∈ (directiveItems directives).inits,
    (applyItems aclSetAdminStrCallbck earlier (aclNew strToMethod).toAcl).adminCommands.length <
      maxAdminCommands) (by simp only [NeverFull, List.mem_inits])

/-- The policy of an admin command is that of the last item about it, if and only if every item
against that policy has been dropped, or stands behind one for it, where the item that allows
`buildm3u` in a fresh list counts as the first one. For a method it is always that of the last item. -/
theorem admin_policy_last_directive (strToMethod : String → Option ReqType)
    (hnames : ∀ name, (strToMethod name).isSome → name.utf8ByteSize ≤ 63)
    (directives : List Directive) :
    ((∀ item ∈ directiveItems directives, adminGetCommand item.2 ≠ -1) →
      NeverFull strToMethod directives → ∀ command,
        let acl := (aclNew strToMethod).toAcl
        let rules := (directiveItems directives).map adminRule
        let policy := lastWriter (aclTestAdmin (some acl) command) rules command
        (aclTestAdmin (some (applyDirectives aclSetAdminStr directives acl)) command = policy ↔
          Settled policy (adminRule (.allow, "buildm3u") :: rules) command)) ∧
    ((∀ item ∈ directiveItems directives, item.2 = "*" ∨ (strToMethod item.2).isSome) → ∀ method,
      let acl := (aclNew strToMethod).toAcl
      aclTestMethod (some (applyDirectives (aclSetMethodStr strToMethod) directives acl)) method =
        lastWriter (aclTestMethod (some acl) method)
          ((directiveItems directives).map (methodRule strToMethod)) method) := by
  constructor
  · intro hknown hroom command acl rules policy
    have happly : applyDirectives aclSetAdminStr directives acl =
        applyItems aclSetAdminStrCallbck (directiveItems directives) acl := by
      apply applyDirectives_eq_applyItems
      · intro item hitem
        exact utf8ByteSize_le_of_adminGetCommand (hknown item hitem)
      · intro earlier item later hsplit
        apply (aclSetAdminStrCallbck_of_known item _ _).1
        · exact hknown item (by simp [hsplit])
        · exact hroom earlier (by simp [hsplit])
    have htable : (applyDirectives aclSetAdminStr directives acl).table =
        (⟨[], .deny⟩ : Table ℤ AclPolicy).run (adminRule (.allow, "buildm3u") :: rules) := by
      rw [happly, table_applyItems hknown hroom, table_aclNew]
      rfl
    have hstart : aclTestAdmin (some acl) command =
        lastWriter AclPolicy.deny [adminRule (.allow, "buildm3u")] command := by
      rw [aclTestAdmin_some, table_aclNew, Table.lookup_eq_lastWriter_iff]
      exact settled_lastWriter_single AclPolicy.deny _ command
    have hpolicy : policy =
        lastWriter AclPolicy.deny (adminRule (.allow, "buildm3u") :: rules) command := by
      have happend := lastWriter_append AclPolicy.deny [adminRule (.allow, "buildm3u")] rules command
      rw [← hstart] at happend
      exact happend.symm
    rw [aclTestAdmin_some, htable, hpolicy]
    exact Table.lookup_eq_lastWriter_iff AclPolicy.deny _ command
  · intro hknown method acl
    have happly : applyDirectives (aclSetMethodStr strToMethod) directives acl =
        applyItems (aclSetMethodStrCallback strToMethod) (directiveItems directives) acl := by
      apply applyDirectives_eq_applyItems
      · intro item hitem
        rcases hknown item hitem with hstar | hmethod
        · rw [hstar]
          decide
        · exact hnames item.2 hmethod
      · intro earlier item later hsplit
        exact (aclSetMethodStrCallback_of_known (hknown item (by simp [hsplit])) _).1
    rw [happly]
    exact method_applyItems hknown acl method

/-- Some of the names that `httpp_str_to_method` knows. -/
def exampleMethods : List (String × ReqType) :=
  [("get", .get), ("post", .post), ("head", .head), ("source", .source), ("put", .put),
    ("stats", .stats)]

def exampleStrToMethod (name : String) : Option ReqType :=
  (exampleMethods.find? (·.1 = name)).map (·.2)

theorem exampleStrToMethod_size (name : String) (h : (exampleStrToMethod name).isSome) :
    name.utf8ByteSize ≤ 63 := by
  rw [exampleStrToMethod, Option.isSome_map] at h
  obtain ⟨entry, hfound⟩ := Option.isSome_iff_exists.mp h
  have hshort : ∀ entry ∈ exampleMethods, entry.1.utf8ByteSize ≤ 63 := by decide
  have hname : entry.1 = name := by simpa using List.find?_some hfound
  exact hname ▸ hshort entry (List.mem_of_find?_eq_some hfound)

/-- The commands that are allowed by name after all have been denied stay allowed. -/
theorem admin_policy_deny_then_allow :
    let directives := [Directive.deny "*", .allow "stats, listmounts"]
    let acl := (aclNew exampleStrToMethod).toAcl
    let rules := (directiveItems directives).map adminRule
    let policy := lastWriter (aclTestAdmin (some acl) (adminGetCommand "stats")) rules
      (adminGetCommand "stats")
    (aclTestAdmin (some (applyDirectives aclSetAdminStr directives acl)) (adminGetCommand "stats") =
        policy ↔
      Settled policy (adminRule (.allow, "buildm3u") :: rules) (adminGetCommand "stats")) ∧
    aclTestAdmin (some (applyDirectives aclSetAdminStr directives acl)) (adminGetCommand "stats") =
      .allow := by
  exact ⟨(admin_policy_last_directive exampleStrToMethod exampleStrToMethod_size _).1 (by decide)
    (by decide) (adminGetCommand "stats"), by decide⟩

/-- The exception for `buildm3u` cannot be taken back. -/
theorem admin_policy_deny_ignored :
    ¬ ∀ directives : List Directive,
      (∀ item ∈ directiveItems directives, adminGetCommand item.2 ≠ -1) →
      NeverFull exampleStrToMethod directives → ∀ command,
        aclTestAdmin (some (applyDirectives aclSetAdminStr directives
            (aclNew exampleStrToMethod).toAcl)) command =
          lastWriter (aclTestAdmin (some (aclNew exampleStrToMethod).toAcl) command)
            ((directiveItems directives).map adminRule) command := by
  intro h
  have hdeny := h [Directive.deny "buildm3u"] (by decide) (by decide)
    (adminGetCommand "buildm3u")
  exact absurd hdeny (by decide)

end Icecast.Auth
