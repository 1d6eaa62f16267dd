import Dezyne.PegCache
/-!
# The grammar

The rules of `peg.scm`: `peg:imports`, `peg:parse` and what skips blanks, with the
names that the rules keep: the events of the interface, the ports of the component
and a stack of frames of variables. The names of the rules are the ones of the
source; the ones of `peg:imports` have a prefix.
-/

namespace Dezyne.Peg

inductive Name where
  | pegEof | pegEol | pegWs | pegLine | pegBlockStrict | pegBlock | importsRoot | importsFileName | importsImport
  | importsDOLLAR | importsIMPORT | importsSEMICOLON | procResetEventNames | procEventName | procIsEvent
  | procResetPortNames | procPortName | procIsPort | procEnterFrame | procExitFrame | procAddVar | procVar
  | dollarsNoSkip | resetEventNames | eventName | isEvent | resetPortNames | portName | isPort | enterFrame
  | exitFrame | addVar | var | dollars | root | imports | definitions | import_ | fileName | dollars_ | type | enum
  | fields | int | range | from_ | to_ | extern_ | namespace_ | namespaceRoot | interface | typesAndEvents | event
  | direction | component | body | system | instancesAndBindings | instance_ | binding | endPoint | ports | port
  | portDirection | portQualifiers | formals | formal | typeName | behavior | behaviorCompound | behaviorStatements
  | function | prototype | expressionFunction | declarativeStatement | on_ | illegalTriggers | illegalTrigger
  | triggers | trigger | triggerFormals | triggerFormal | guard | compound | statement | invariant
  | imperativeStatement | defer | deferArguments | deferArgument | actionOrCall | action | call | arguments
  | argument | skipStatement | blocking | illegal | assign | ifStatement | reply | return_ | variable_ | expression
  | impliesExpression | orExpression | andExpression | compareExpression | plusMinExpression | notExpression
  | negation | minus | enumLiteral | fieldTest | sharedVar | sharedFieldTest | literal | group | name | scopedName
  | compoundName | scope | global | identifier | unknownIdentifier | duplicateIdentifier | otherwise | provides
  | requires | blockingQ | external | injected | UMINUS | NUMBER | ASTERISK | DOLLAR | BRACE_OPEN | BRACE_CLOSE
  | BRACKET_OPEN | BRACKET_CLOSE | PAREN_OPEN | PAREN_CLOSE | SEMICOLON | COLON | DOT | DOTDOT | COMMA | BIND
  | ASSIGN | LEFT_ARROW | OR | AND | EQUAL | NOT_EQUAL | LESS | LESS_EQUAL | GREATER | GREATER_EQUAL | IMPLIES | PLUS
  | MINUS | NOT | EOF | COMPARE | BEHAVIOR | BLOCKING | BOOL | COMPONENT | DEFER | ELSE | ENUM | EXTERN | EXTERNAL
  | FALSE | IF | ILLEGAL | IMPORT | IN | INEVITABLE | INJECTED | INOUT | INTERFACE | INVARIANT | NAMESPACE | ON
  | OPTIONAL | OTHERWISE | OUT | PROVIDES | REPLY | REQUIRES | RETURN | SUBINT | SYSTEM | TRUE | VOID | NEWLINE
  | KEYWORD
  deriving DecidableEq

inductive Action where
  | resetEventNames | addEvent | isEvent | resetPortNames | addPort | isPort | enterFrame | exitFrame | addVar | var
  deriving DecidableEq

/-- `interface-events`, `port-names` and `variable-stack` -/
structure Names where
  interfaceEvents : List (List Char)
  portNames : List (List Char)
  variableStack : List (List (List Char))

/-- What an action does with a name; `none` is `#f`. -/
def act (a : Action) (s : List Char) (names : Names) : Option Names :=
  let top := names.variableStack.headD []
  match a with
  | .resetEventNames => some { names with interfaceEvents := [] }
  | .addEvent => some { names with interfaceEvents := s :: names.interfaceEvents }
  | .isEvent => if s ∈ names.interfaceEvents then some names else none
  | .resetPortNames => some { names with portNames := [] }
  | .addPort => some { names with portNames := s :: names.portNames }
  | .isPort => if s ∈ names.portNames then some names else none
  | .enterFrame => some { names with variableStack := top :: names.variableStack }
  | .exitFrame => some { names with variableStack := names.variableStack.tail }
  | .addVar => some { names with variableStack := (s :: top) :: names.variableStack.tail }
  | .var => if s ∈ top then some names else none

def lit (s : String) : Pattern Name := .str s.toList

/-- `![a-zA-Z_0-9]` -/
def wordEnd : Pattern Name := .notFollowedBy (.or [.range 'a' 'z', .range 'A' 'Z', lit "_", .range '0' '9'])

def keyword (s : String) : Pattern Name := .and [lit s, wordEnd]

/-- The name of a rule in the source, and its definition. -/
def definition : Name → String × Definition Name Action
  | .pegEof => ("peg-eof", .skip .none (.notFollowedBy .any))
  | .pegEol => ("peg-eol", .skip .none (.or [lit "\x0c", lit "\n", lit "\r", lit "\x0b"]))
  | .pegWs => ("peg-ws", .skip .none (.or [lit " ", lit "	"]))
  | .pegLine => ("peg-line", .skip .all (.and [lit "//", .star (.and [.notFollowedBy (.sym .pegEol), .any]),
      .expect (.or [lit "\n", lit "\r\n", .sym .pegEof])]))
  | .pegBlockStrict => ("peg-block-strict", .skip .all (.and [lit "/*", .star (.or [.sym .pegBlock,
      .and [.notFollowedBy (lit "*/"), .any]]), .expect (lit "*/")]))
  | .pegBlock => ("peg-block", .skip .all (.and [lit "/*", .star (.or [.sym .pegBlock,
      .and [.notFollowedBy (lit "*/"), .any]]), .or [lit "*/", .sym .pegEof]]))
  | .importsRoot => ("root", .peg .body (.star (.sym .importsImport)))
  | .importsFileName => ("file-name", .peg .body (.plus (.and [.notFollowedBy (.sym .importsSEMICOLON),
      .notFollowedBy (.sym .importsDOLLAR), .any])))
  | .importsImport => ("import", .peg .all (.and [.sym .importsIMPORT, .sym .importsFileName,
      .sym .importsSEMICOLON]))
  | .importsDOLLAR => ("DOLLAR", .peg .none (lit "$"))
  | .importsIMPORT => ("IMPORT", .peg .none (keyword "import"))
  | .importsSEMICOLON => ("SEMICOLON", .peg .none (lit ";"))
  | .procResetEventNames => ("-reset-event-names-", .proc (.act .resetEventNames))
  | .procEventName => ("-event-name-", .proc (.named .name .addEvent))
  | .procIsEvent => ("-is-event-", .proc (.named .name .isEvent))
  | .procResetPortNames => ("-reset-port-names-", .proc (.act .resetPortNames))
  | .procPortName => ("-port-name-", .proc (.named .name .addPort))
  | .procIsPort => ("-is-port-", .proc (.named .name .isPort))
  | .procEnterFrame => ("-enter-frame-", .proc (.act .enterFrame))
  | .procExitFrame => ("-exit-frame-", .proc (.act .exitFrame))
  | .procAddVar => ("-add-var-", .proc (.named .name .addVar))
  | .procVar => ("-var-", .proc (.named .name .var))
  | .dollarsNoSkip => ("dollars-no-skip", .proc (.noSkip .dollars_))
  | .resetEventNames => ("reset-event-names", .skip .none (.sym .procResetEventNames))
  | .eventName => ("event-name", .peg .all (.sym .procEventName))
  | .isEvent => ("is-event", .peg .body (.sym .procIsEvent))
  | .resetPortNames => ("reset-port-names", .skip .none (.sym .procResetPortNames))
  | .portName => ("port-name", .peg .body (.sym .procPortName))
  | .isPort => ("is-port", .peg .body (.sym .procIsPort))
  | .enterFrame => ("enter-frame", .skip .none (.sym .procEnterFrame))
  | .exitFrame => ("exit-frame", .skip .none (.sym .procExitFrame))
  | .addVar => ("add-var", .peg .body (.sym .procAddVar))
  | .var => ("var", .peg .all (.sym .procVar))
  | .dollars => ("dollars", .peg .all (.sym .dollarsNoSkip))
  | .root => ("root", .peg .all (.expect (.or [.sym .EOF, .and [.sym .imports, .sym .EOF], .and [.sym .imports,
      .sym .definitions], .sym .definitions])))
  | .imports => ("imports", .peg .all (.plus (.sym .import_)))
  | .definitions => ("definitions", .peg .all (.plus (.expect (.or [.sym .dollars, .sym .type, .sym .namespace_,
      .sym .function, .sym .prototype, .sym .interface, .sym .component, .sym .EOF]))))
  | .import_ => ("import", .peg .all (.and [.sym .IMPORT, .sym .fileName, .expect (.sym .SEMICOLON)]))
  | .fileName => ("file-name", .peg .body (.plus (.and [.notFollowedBy (.sym .SEMICOLON), .any])))
  | .dollars_ => ("dollars-", .peg .body (.and [.sym .DOLLAR, .star (.and [.notFollowedBy (.sym .DOLLAR), .any]),
      .expect (.sym .DOLLAR)]))
  | .type => ("type", .peg .body (.or [.sym .enum, .sym .int, .sym .extern_]))
  | .enum => ("enum", .peg .all (.and [.sym .ENUM, .expect (.sym .scopedName), .expect (.sym .BRACE_OPEN),
      .expect (.sym .fields), .expect (.sym .BRACE_CLOSE), .expect (.sym .SEMICOLON)]))
  | .fields => ("fields", .peg .all (.plus (.and [.sym .name, .or [.followedBy (.sym .BRACE_CLOSE),
      .expect (.sym .COMMA)]])))
  | .int => ("int", .peg .all (.and [.sym .SUBINT, .expect (.sym .scopedName), .expect (.sym .BRACE_OPEN),
      .expect (.sym .range), .expect (.sym .BRACE_CLOSE), .expect (.sym .SEMICOLON)]))
  | .range => ("range", .peg .all (.and [.sym .from_, .expect (.sym .DOTDOT), .sym .to_]))
  | .from_ => ("from", .peg .all (.expect (.sym .NUMBER)))
  | .to_ => ("to", .peg .all (.expect (.sym .NUMBER)))
  | .extern_ => ("extern", .peg .all (.and [.sym .EXTERN, .expect (.sym .scopedName), .expect (.sym .dollars),
      .expect (.sym .SEMICOLON)]))
  | .namespace_ => ("namespace", .peg .all (.and [.sym .NAMESPACE, .expect (.sym .compoundName),
      .expect (.sym .BRACE_OPEN), .sym .namespaceRoot, .expect (.sym .BRACE_CLOSE)]))
  | .namespaceRoot => ("namespace-root", .peg .all (.star (.expect (.or [.sym .type, .sym .function, .sym .prototype,
      .sym .namespace_, .sym .interface, .sym .component, .followedBy (.sym .BRACE_CLOSE)]))))
  | .interface => ("interface", .peg .all (.and [.sym .INTERFACE, .expect (.sym .scopedName),
      .expect (.sym .BRACE_OPEN), .expect (.sym .typesAndEvents), .expect (.or [.sym .behavior,
      .followedBy (.sym .BRACE_CLOSE)]), .expect (.sym .BRACE_CLOSE), .sym .resetEventNames]))
  | .typesAndEvents => ("types-and-events", .peg .all (.star (.expect (.or [.sym .type, .sym .event,
      .followedBy (.sym .behavior), .followedBy (.sym .BRACE_CLOSE)]))))
  | .event => ("event", .peg .all (.and [.sym .direction, .expect (.sym .typeName), .expect (.sym .eventName),
      .sym .enterFrame, .expect (.sym .formals), .sym .exitFrame, .expect (.sym .SEMICOLON)]))
  | .direction => ("direction", .peg .all (.or [.sym .IN, .sym .OUT]))
  | .component => ("component", .peg .all (.and [.sym .COMPONENT, .expect (.sym .scopedName),
      .expect (.sym .BRACE_OPEN), .expect (.sym .ports), .expect (.sym .body), .expect (.sym .BRACE_CLOSE),
      .sym .resetPortNames]))
  | .body => ("body", .peg .body (.or [.sym .behavior, .sym .system, .followedBy (.sym .BRACE_CLOSE)]))
  | .system => ("system", .peg .all (.and [.sym .SYSTEM, .expect (.sym .BRACE_OPEN), .sym .instancesAndBindings,
      .expect (.sym .BRACE_CLOSE)]))
  | .instancesAndBindings => ("instances-and-bindings", .peg .all (.star (.or [.sym .binding, .sym .instance_])))
  | .instance_ => ("instance", .peg .all (.and [.sym .compoundName, .expect (.sym .name), .expect (.sym .SEMICOLON)]))
  | .binding => ("binding", .peg .all (.and [.sym .endPoint, .sym .BIND, .expect (.sym .endPoint),
      .expect (.sym .SEMICOLON)]))
  | .endPoint => ("end-point", .peg .all (.or [.and [.sym .compoundName, .opt (.and [.sym .DOT, .sym .ASTERISK])],
      .sym .ASTERISK]))
  | .ports => ("ports", .peg .all (.star (.expect (.or [.sym .port, .followedBy (.sym .BEHAVIOR),
      .followedBy (.sym .SYSTEM), .followedBy (.sym .BRACE_CLOSE)]))))
  | .port => ("port", .peg .all (.and [.sym .portDirection, .opt (.sym .portQualifiers),
      .expect (.sym .compoundName), .opt (.sym .formals), .expect (.sym .portName), .expect (.sym .SEMICOLON)]))
  | .portDirection => ("port-direction", .peg .body (.or [.sym .provides, .sym .requires]))
  | .portQualifiers => ("port-qualifiers", .peg .all (.star (.or [.sym .blockingQ, .sym .external, .sym .injected,
      .followedBy (.sym .compoundName)])))
  | .formals => ("formals", .peg .all (.and [.sym .PAREN_OPEN, .star (.and [.sym .formal,
      .or [.followedBy (.sym .PAREN_CLOSE), .expect (.sym .COMMA)]]), .expect (.sym .PAREN_CLOSE)]))
  | .formal => ("formal", .peg .all (.and [.opt (.or [.sym .INOUT, .sym .IN, .sym .OUT]), .sym .typeName,
      .expect (.sym .addVar)]))
  | .typeName => ("type-name", .peg .all (.or [.sym .compoundName, .sym .BOOL, .sym .VOID]))
  | .behavior => ("behavior", .peg .all (.and [.sym .BEHAVIOR, .sym .behaviorCompound]))
  | .behaviorCompound => ("behavior-compound", .peg .all (.and [.expect (.sym .BRACE_OPEN), .sym .enterFrame,
      .sym .behaviorStatements, .expect (.sym .BRACE_CLOSE), .sym .exitFrame]))
  | .behaviorStatements => ("behavior-statements", .peg .all (.star (.expect (.or [.sym .expressionFunction,
      .sym .function, .sym .variable_, .sym .declarativeStatement, .sym .type, .followedBy (.sym .BRACE_CLOSE)]))))
  | .function => ("function", .peg .all (.and [.sym .typeName, .or [.and [.notFollowedBy (.sym .isEvent),
      .sym .name], .sym .duplicateIdentifier], .followedBy (.and [.sym .formals, .sym .BRACE_OPEN]),
      .sym .enterFrame, .sym .formals, .expect (.sym .compound), .sym .exitFrame]))
  | .prototype => ("prototype", .peg .all (.and [.sym .typeName, .or [.and [.notFollowedBy (.sym .isEvent),
      .sym .name], .sym .duplicateIdentifier], .sym .formals, .expect (.sym .SEMICOLON)]))
  | .expressionFunction => ("expression-function", .peg .all (.and [.sym .typeName,
      .or [.and [.notFollowedBy (.sym .isEvent), .sym .name], .sym .duplicateIdentifier],
      .followedBy (.sym .PAREN_OPEN), .sym .formals, .sym .ASSIGN, .expect (.sym .expression),
      .expect (.sym .SEMICOLON)]))
  | .declarativeStatement => ("declarative-statement", .peg .body (.or [.sym .on_, .sym .blocking, .sym .guard,
      .sym .compound, .sym .invariant]))
  | .on_ => ("on", .peg .all (.and [.sym .ON, .or [.and [.sym .illegalTriggers, .sym .COLON, .sym .illegal],
      .and [.sym .enterFrame, .expect (.sym .triggers), .expect (.sym .COLON), .expect (.or [.sym .statement,
      .notFollowedBy (.sym .unknownIdentifier)]), .sym .exitFrame]]]))
  | .illegalTriggers => ("illegal-triggers", .peg .all (.plus (.and [.sym .illegalTrigger,
      .expect (.or [.followedBy (.sym .COLON), .sym .COMMA])])))
  | .illegalTrigger => ("illegal-trigger", .peg .all (.or [.and [.sym .isPort, .expect (.sym .DOT),
      .expect (.sym .name), .opt (.sym .triggerFormals)], .sym .isEvent]))
  | .triggers => ("triggers", .peg .all (.plus (.expect (.and [.or [.sym .trigger,
      .notFollowedBy (.sym .unknownIdentifier)], .expect (.or [.followedBy (.sym .COLON), .sym .COMMA])]))))
  | .trigger => ("trigger", .peg .all (.or [.and [.sym .isPort, .expect (.sym .DOT), .expect (.sym .name),
      .expect (.sym .triggerFormals)], .sym .OPTIONAL, .sym .INEVITABLE, .sym .isEvent]))
  | .triggerFormals => ("trigger-formals", .peg .all (.and [.sym .PAREN_OPEN, .star (.and [.sym .triggerFormal,
      .or [.followedBy (.sym .PAREN_CLOSE), .expect (.sym .COMMA)]]), .expect (.sym .PAREN_CLOSE)]))
  | .triggerFormal => ("trigger-formal", .peg .all (.and [.sym .addVar, .opt (.and [.sym .LEFT_ARROW, .sym .var])]))
  | .guard => ("guard", .peg .all (.and [.sym .BRACKET_OPEN, .expect (.or [.sym .otherwise, .sym .expression]),
      .expect (.sym .BRACKET_CLOSE), .expect (.sym .statement)]))
  | .compound => ("compound", .peg .all (.and [.sym .BRACE_OPEN, .sym .enterFrame,
      .star (.expect (.or [.sym .statement, .notFollowedBy (.sym .unknownIdentifier)])), .expect (.sym .BRACE_CLOSE),
      .sym .exitFrame]))
  | .statement => ("statement", .peg .body (.expect (.or [.sym .declarativeStatement, .sym .imperativeStatement,
      .notFollowedBy (.sym .unknownIdentifier)])))
  | .invariant => ("invariant", .peg .all (.and [.sym .INVARIANT, .expect (.sym .expression),
      .expect (.sym .SEMICOLON)]))
  | .imperativeStatement => ("imperative-statement", .peg .body (.or [.sym .variable_, .sym .assign,
      .sym .ifStatement, .sym .illegal, .sym .return_, .sym .skipStatement, .sym .compound, .sym .reply, .sym .defer,
      .sym .actionOrCall]))
  | .defer => ("defer", .peg .all (.and [.sym .DEFER, .opt (.sym .deferArguments), .sym .imperativeStatement]))
  | .deferArguments => ("defer-arguments", .peg .all (.and [.sym .PAREN_OPEN, .star (.and [.sym .deferArgument,
      .or [.followedBy (.sym .PAREN_CLOSE), .expect (.sym .COMMA)]]), .expect (.sym .PAREN_CLOSE)]))
  | .deferArgument => ("defer-argument", .peg .all (.or [.sym .var, .sym .sharedVar, .sym .unknownIdentifier]))
  | .actionOrCall => ("action-or-call", .peg .body (.and [.or [.sym .action, .sym .call], .expect (.sym .SEMICOLON)]))
  | .action => ("action", .peg .all (.or [.and [.sym .isPort, .sym .DOT, .expect (.sym .name), .sym .arguments],
      .and [.sym .isEvent, .notFollowedBy (.sym .arguments)]]))
  | .call => ("call", .peg .all (.and [.sym .compoundName, .sym .arguments]))
  | .arguments => ("arguments", .peg .all (.and [.sym .PAREN_OPEN, .star (.and [.sym .argument,
      .or [.followedBy (.sym .PAREN_CLOSE), .expect (.sym .COMMA)]]), .expect (.sym .PAREN_CLOSE)]))
  | .argument => ("argument", .peg .all (.sym .expression))
  | .skipStatement => ("skip-statement", .peg .all (.sym .SEMICOLON))
  | .blocking => ("blocking", .peg .all (.and [.sym .BLOCKING, .sym .statement]))
  | .illegal => ("illegal", .peg .all (.or [.and [.sym .ILLEGAL, .expect (.sym .SEMICOLON)], .and [.sym .BRACE_OPEN,
      .sym .ILLEGAL, .expect (.sym .SEMICOLON), .expect (.sym .BRACE_CLOSE)]]))
  | .assign => ("assign", .peg .all (.and [.sym .var, .sym .ASSIGN, .expect (.sym .expression),
      .expect (.sym .SEMICOLON)]))
  | .ifStatement => ("if-statement", .peg .all (.and [.sym .IF, .expect (.sym .PAREN_OPEN),
      .expect (.sym .expression), .expect (.sym .PAREN_CLOSE), .expect (.sym .imperativeStatement),
      .opt (.and [.sym .ELSE, .expect (.sym .imperativeStatement)])]))
  | .reply => ("reply", .peg .all (.and [.opt (.and [.sym .name, .sym .DOT]), .sym .REPLY,
      .expect (.sym .PAREN_OPEN), .opt (.sym .expression), .expect (.sym .PAREN_CLOSE), .expect (.sym .SEMICOLON)]))
  | .return_ => ("return", .peg .all (.and [.sym .RETURN, .opt (.sym .expression), .expect (.sym .SEMICOLON)]))
  | .variable_ => ("variable", .peg .all (.and [.sym .typeName, .sym .addVar, .opt (.and [.sym .ASSIGN,
      .expect (.sym .expression)]), .expect (.sym .SEMICOLON)]))
  | .expression => ("expression", .peg .all (.sym .impliesExpression))
  | .impliesExpression => ("implies-expression", .peg .body (.or [.and [.sym .orExpression, .sym .IMPLIES,
      .expect (.sym .impliesExpression)], .sym .orExpression]))
  | .orExpression => ("or-expression", .peg .body (.or [.and [.sym .andExpression, .sym .OR,
      .expect (.sym .orExpression)], .sym .andExpression]))
  | .andExpression => ("and-expression", .peg .body (.or [.and [.sym .compareExpression, .sym .AND,
      .expect (.sym .andExpression)], .sym .compareExpression]))
  | .compareExpression => ("compare-expression", .peg .body (.or [.and [.sym .plusMinExpression,
      .notFollowedBy (.sym .LEFT_ARROW), .sym .COMPARE, .expect (.sym .plusMinExpression)], .sym .plusMinExpression]))
  | .plusMinExpression => ("plus-min-expression", .peg .body (.or [.and [.sym .notExpression, .or [.sym .PLUS,
      .sym .MINUS], .expect (.sym .plusMinExpression)], .sym .notExpression]))
  | .notExpression => ("not-expression", .peg .body (.or [.sym .minus, .sym .negation, .sym .group, .sym .dollars,
      .sym .literal, .and [.notFollowedBy (.or [.sym .isPort, .sym .call, .sym .var]), .sym .enumLiteral],
      .sym .fieldTest, .sym .action, .sym .sharedFieldTest, .sym .sharedVar, .sym .call, .sym .var,
      .sym .unknownIdentifier]))
  | .negation => ("negation", .peg .all (.and [.sym .NOT, .expect (.sym .notExpression)]))
  | .minus => ("minus", .peg .all (.and [.sym .UMINUS, .expect (.sym .notExpression)]))
  | .enumLiteral => ("enum-literal", .peg .all (.and [.opt (.sym .global), .sym .scope, .sym .name]))
  | .fieldTest => ("field-test", .peg .all (.and [.sym .var, .sym .DOT, .expect (.sym .name)]))
  | .sharedVar => ("shared-var", .peg .all (.and [.sym .isPort, .sym .DOT, .expect (.sym .name)]))
  | .sharedFieldTest => ("shared-field-test", .peg .all (.and [.sym .isPort, .sym .DOT,
      .notFollowedBy (.sym .isPort), .sym .name, .sym .DOT, .expect (.sym .name)]))
  | .literal => ("literal", .peg .all (.or [.sym .NUMBER, .sym .FALSE, .sym .TRUE]))
  | .group => ("group", .peg .all (.and [.sym .PAREN_OPEN, .sym .expression, .expect (.sym .PAREN_CLOSE)]))
  | .name => ("name", .peg .all (.sym .identifier))
  | .scopedName => ("scoped-name", .peg .all (.sym .identifier))
  | .compoundName => ("compound-name", .peg .all (.and [.opt (.sym .global), .opt (.sym .scope), .sym .name]))
  | .scope => ("scope", .peg .all (.plus (.and [.sym .name, .sym .DOT, .followedBy (.sym .name)])))
  | .global => ("global", .peg .all (.sym .DOT))
  | .identifier => ("identifier", .peg .body (.and [.notFollowedBy (.sym .KEYWORD), .or [.range 'a' 'z',
      .range 'A' 'Z', lit "_"], .star (.or [.range 'a' 'z', .range 'A' 'Z', lit "_", .range '0' '9'])]))
  | .unknownIdentifier => ("unknown-identifier", .peg .all (.sym .identifier))
  | .duplicateIdentifier => ("duplicate-identifier", .peg .all (.sym .identifier))
  | .otherwise => ("otherwise", .peg .all (.sym .OTHERWISE))
  | .provides => ("provides", .peg .all (.sym .PROVIDES))
  | .requires => ("requires", .peg .all (.sym .REQUIRES))
  | .blockingQ => ("blocking-q", .peg .all (.sym .BLOCKING))
  | .external => ("external", .peg .all (.sym .EXTERNAL))
  | .injected => ("injected", .peg .all (.sym .INJECTED))
  | .UMINUS => ("UMINUS", .peg .none (.sym .MINUS))
  | .NUMBER => ("NUMBER", .peg .body (.and [.opt (.sym .MINUS), .plus (.range '0' '9')]))
  | .ASTERISK => ("ASTERISK", .peg .body (lit "*"))
  | .DOLLAR => ("DOLLAR", .peg .none (lit "$"))
  | .BRACE_OPEN => ("BRACE-OPEN", .peg .none (lit "\x7b"))
  | .BRACE_CLOSE => ("BRACE-CLOSE", .peg .none (lit "\x7d"))
  | .BRACKET_OPEN => ("BRACKET-OPEN", .peg .none (lit "["))
  | .BRACKET_CLOSE => ("BRACKET-CLOSE", .peg .none (lit "]"))
  | .PAREN_OPEN => ("PAREN-OPEN", .peg .none (lit "("))
  | .PAREN_CLOSE => ("PAREN-CLOSE", .peg .none (lit ")"))
  | .SEMICOLON => ("SEMICOLON", .peg .none (lit ";"))
  | .COLON => ("COLON", .peg .none (lit ":"))
  | .DOT => ("DOT", .peg .none (lit "."))
  | .DOTDOT => ("DOTDOT", .peg .none (lit ".."))
  | .COMMA => ("COMMA", .peg .none (lit ","))
  | .BIND => ("BIND", .peg .none (lit "<=>"))
  | .ASSIGN => ("ASSIGN", .peg .none (lit "="))
  | .LEFT_ARROW => ("LEFT-ARROW", .peg .none (lit "<-"))
  | .OR => ("OR", .peg .body (lit "||"))
  | .AND => ("AND", .peg .body (lit "&&"))
  | .EQUAL => ("EQUAL", .peg .body (lit "=="))
  | .NOT_EQUAL => ("NOT-EQUAL", .peg .body (lit "!="))
  | .LESS => ("LESS", .peg .body (lit "<"))
  | .LESS_EQUAL => ("LESS-EQUAL", .peg .body (lit "<="))
  | .GREATER => ("GREATER", .peg .body (lit ">"))
  | .GREATER_EQUAL => ("GREATER-EQUAL", .peg .body (lit ">="))
  | .IMPLIES => ("IMPLIES", .peg .body (lit "=>"))
  | .PLUS => ("PLUS", .peg .body (lit "+"))
  | .MINUS => ("MINUS", .peg .body (lit "-"))
  | .NOT => ("NOT", .peg .none (lit "!"))
  | .EOF => ("EOF", .peg .none (.notFollowedBy .any))
  | .COMPARE => ("COMPARE", .peg .body (.or [.sym .EQUAL, .sym .NOT_EQUAL, .sym .LESS_EQUAL, .sym .LESS,
      .sym .GREATER_EQUAL, .sym .GREATER]))
  | .BEHAVIOR => ("BEHAVIOR", .peg .none (.or [keyword "behavior", keyword "behaviour"]))
  | .BLOCKING => ("BLOCKING", .peg .none (keyword "blocking"))
  | .BOOL => ("BOOL", .peg .body (keyword "bool"))
  | .COMPONENT => ("COMPONENT", .peg .none (keyword "component"))
  | .DEFER => ("DEFER", .peg .none (keyword "defer"))
  | .ELSE => ("ELSE", .peg .none (keyword "else"))
  | .ENUM => ("ENUM", .peg .none (keyword "enum"))
  | .EXTERN => ("EXTERN", .peg .none (keyword "extern"))
  | .EXTERNAL => ("EXTERNAL", .peg .none (keyword "external"))
  | .FALSE => ("FALSE", .peg .body (keyword "false"))
  | .IF => ("IF", .peg .none (keyword "if"))
  | .ILLEGAL => ("ILLEGAL", .peg .none (keyword "illegal"))
  | .IMPORT => ("IMPORT", .peg .none (keyword "import"))
  | .IN => ("IN", .peg .body (keyword "in"))
  | .INEVITABLE => ("INEVITABLE", .peg .body (keyword "inevitable"))
  | .INJECTED => ("INJECTED", .peg .none (keyword "injected"))
  | .INOUT => ("INOUT", .peg .body (keyword "inout"))
  | .INTERFACE => ("INTERFACE", .peg .none (keyword "interface"))
  | .INVARIANT => ("INVARIANT", .peg .none (keyword "invariant"))
  | .NAMESPACE => ("NAMESPACE", .peg .none (keyword "namespace"))
  | .ON => ("ON", .peg .none (keyword "on"))
  | .OPTIONAL => ("OPTIONAL", .peg .body (keyword "optional"))
  | .OTHERWISE => ("OTHERWISE", .peg .none (keyword "otherwise"))
  | .OUT => ("OUT", .peg .body (keyword "out"))
  | .PROVIDES => ("PROVIDES", .peg .none (keyword "provides"))
  | .REPLY => ("REPLY", .peg .body (keyword "reply"))
  | .REQUIRES => ("REQUIRES", .peg .none (keyword "requires"))
  | .RETURN => ("RETURN", .peg .none (keyword "return"))
  | .SUBINT => ("SUBINT", .peg .none (keyword "subint"))
  | .SYSTEM => ("SYSTEM", .peg .none (keyword "system"))
  | .TRUE => ("TRUE", .peg .body (keyword "true"))
  | .VOID => ("VOID", .peg .body (keyword "void"))
  | .NEWLINE => ("NEWLINE", .peg .body (lit "\n"))
  | .KEYWORD => ("KEYWORD", .peg .none (.or [keyword "behavior", keyword "behaviour", keyword "blocking",
      keyword "component", keyword "defer", keyword "else", keyword "enum", keyword "extern", keyword "external",
      keyword "false", keyword "if", keyword "illegal", keyword "import", keyword "in", keyword "inevitable",
      keyword "injected", keyword "inout", keyword "interface", keyword "invariant", keyword "namespace",
      keyword "on", keyword "optional", keyword "otherwise", keyword "out", keyword "provides", keyword "reply",
      keyword "requires", keyword "return", keyword "subint", keyword "system", keyword "true"]))

def grammar : Grammar Name Action Names := ⟨fun n => (definition n).2, fun n => (definition n).1.toList, act⟩

/-- `peg-skip`, which is a repetition of this -/
def pegSkip : Pattern Name := .or [.sym .pegWs, .sym .pegEol, .sym .pegLine, .sym .pegBlockStrict]

/-- `peg-import-skip` -/
def pegImportSkip : Pattern Name := .or [.sym .pegWs, .sym .pegEol, .sym .pegLine, .sym .pegBlock]

def parseInput (locations : Bool) (text : List Char) : Input Name := ⟨0, text, locations, some pegSkip⟩

def importsInput (text : List Char) : Input Name := ⟨0, text, false, some pegImportSkip⟩

/-- `peg:parse` -/
def pegParse (cached locations : Bool) (fuel : Nat) (text : List Char) : Outcome Name Names :=
  matchPattern grammar cached fuel (parseInput locations text) .root (.init ⟨[], [], []⟩)

/-- `peg:imports`, without locations -/
def pegImports (cached : Bool) (fuel : Nat) (text : List Char) : Outcome Name Names :=
  matchPattern grammar cached fuel (importsInput text) .importsRoot (.init ⟨[], [], []⟩)

/-! ## What is known of the rules -/

/-- The rules that may come to nothing. -/
def nul : Name → Bool
  | .pegEof | .importsRoot | .procResetEventNames | .procResetPortNames | .procEnterFrame | .procExitFrame
  | .resetEventNames | .resetPortNames | .enterFrame | .exitFrame | .root | .namespaceRoot | .typesAndEvents | .body
  | .instancesAndBindings | .ports | .portQualifiers | .behaviorStatements | .statement | .EOF => true
  | _ => false

/-- The rules that come to the end of the text. -/
def ends : Name → Bool
  | .pegEof | .root | .definitions | .EOF => true
  | _ => false

def facts : Facts Name := ⟨nul, ends⟩

/-- A rule comes, at the same position, to rules of a smaller rank only. -/
def rank : Name → Nat
  | .pegEof | .pegEol | .pegWs | .pegLine | .pegBlockStrict | .pegBlock | .procResetEventNames | .procResetPortNames
  | .procEnterFrame | .procExitFrame => 0
  | .importsFileName | .importsImport | .import_ | .fileName | .dollars_ | .enum | .int | .extern_ | .namespace_
  | .interface | .direction | .component | .system | .formals | .behavior | .behaviorCompound | .on_
  | .triggerFormals | .guard | .compound | .invariant | .defer | .deferArguments | .arguments | .skipStatement
  | .blocking | .illegal | .ifStatement | .return_ | .negation | .group | .global | .identifier | .otherwise
  | .provides | .requires | .blockingQ | .external | .injected | .UMINUS | .NUMBER | .COMPARE => 2
  | .importsRoot | .dollarsNoSkip | .imports | .type | .from_ | .to_ | .event | .body | .portDirection
  | .declarativeStatement | .minus | .literal | .name | .scopedName | .unknownIdentifier | .duplicateIdentifier => 3
  | .procEventName | .procIsEvent | .procPortName | .procIsPort | .procAddVar | .procVar | .dollars | .fields
  | .range | .typesAndEvents | .port | .reply | .scope => 4
  | .eventName | .isEvent | .portName | .isPort | .addVar | .var | .ports | .enumLiteral | .compoundName => 5
  | .instance_ | .endPoint | .portQualifiers | .typeName | .illegalTrigger | .trigger | .triggerFormal | .action
  | .call | .assign | .fieldTest | .sharedVar | .sharedFieldTest => 6
  | .binding | .formal | .function | .prototype | .expressionFunction | .illegalTriggers | .triggers | .deferArgument
  | .actionOrCall | .variable_ | .notExpression => 7
  | .definitions | .namespaceRoot | .instancesAndBindings | .behaviorStatements | .imperativeStatement
  | .plusMinExpression => 8
  | .root | .statement | .compareExpression => 9
  | .andExpression => 10
  | .orExpression => 11
  | .impliesExpression => 12
  | .expression => 13
  | .argument => 14
  | _ => 1

/-- Whether blanks are skipped before a rule; what skips them can be used in any mode. -/
def mode : Name → Option Bool
  | .dollars_ | .DOLLAR => some false
  | .pegEof | .pegEol | .pegWs | .pegLine | .pegBlockStrict | .pegBlock | .procResetEventNames | .procResetPortNames
  | .procEnterFrame | .procExitFrame | .dollarsNoSkip | .resetEventNames | .resetPortNames | .enterFrame
  | .exitFrame => none
  | _ => some true

/-- The rules that do not depend on names. -/
def pure : Name → Bool
  | .procResetEventNames | .procEventName | .procIsEvent | .procResetPortNames | .procPortName | .procIsPort
  | .procEnterFrame | .procExitFrame | .procAddVar | .procVar | .resetEventNames | .eventName | .isEvent
  | .resetPortNames | .portName | .isPort | .enterFrame | .exitFrame | .addVar | .var | .root | .definitions
  | .namespace_ | .namespaceRoot | .interface | .typesAndEvents | .event | .component | .body | .ports | .port
  | .formals | .formal | .behavior | .behaviorCompound | .behaviorStatements | .function | .prototype
  | .expressionFunction | .declarativeStatement | .on_ | .illegalTriggers | .illegalTrigger | .triggers | .trigger
  | .triggerFormals | .triggerFormal | .guard | .compound | .statement | .invariant | .imperativeStatement | .defer
  | .deferArguments | .deferArgument | .actionOrCall | .action | .call | .arguments | .argument | .blocking | .assign
  | .ifStatement | .reply | .return_ | .variable_ | .expression | .impliesExpression | .orExpression | .andExpression
  | .compareExpression | .plusMinExpression | .notExpression | .negation | .minus | .fieldTest | .sharedVar
  | .sharedFieldTest | .group => false
  | _ => true

end Dezyne.Peg
