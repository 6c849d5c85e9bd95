/-!
# Kinds of syntax nodes

The node types of the ECMAScript syntax tree, the fields that hold a node's children, and the groups
of types that the analyses treat alike.
-/

namespace ScriptAudit

inductive Kind where
  | program | blockStatement | classBody | expressionStatement | identifier | literal
  | thisExpression | superKeyword | importKeyword | emptyStatement | debuggerStatement
  | arrayExpression | arrayPattern | objectExpression | objectPattern | property
  | methodDefinition | functionDeclaration | functionExpression | arrowFunctionExpression
  | classDeclaration | classExpression | assignmentExpression | binaryExpression
  | logicalExpression | assignmentPattern | unaryExpression | updateExpression
  | spreadElement | restElement | experimentalSpreadProperty | awaitExpression
  | yieldExpression | throwStatement | callExpression | newExpression | memberExpression
  | conditionalExpression | sequenceExpression | templateLiteral | templateElement
  | taggedTemplateExpression | metaProperty | variableDeclaration | variableDeclarator
  | ifStatement | returnStatement | forStatement | forInStatement | forOfStatement
  | whileStatement | doWhileStatement | switchStatement | switchCase | tryStatement
  | catchClause | labeledStatement | breakStatement | continueStatement | withStatement
  | importDeclaration | importSpecifier | importDefaultSpecifier | importNamespaceSpecifier
  | exportDefaultSpecifier | exportNamedDeclaration | exportSpecifier
  | exportDefaultDeclaration | exportAllDeclaration
  | unknown
  deriving DecidableEq, Repr

namespace Kind

def names : List (String × Kind) := [
  ("Program", program), ("BlockStatement", blockStatement), ("ClassBody", classBody),
  ("ExpressionStatement", expressionStatement), ("Identifier", identifier), ("Literal", literal),
  ("ThisExpression", thisExpression), ("Super", superKeyword), ("Import", importKeyword),
  ("EmptyStatement", emptyStatement), ("DebuggerStatement", debuggerStatement),
  ("ArrayExpression", arrayExpression), ("ArrayPattern", arrayPattern),
  ("ObjectExpression", objectExpression), ("ObjectPattern", objectPattern),
  ("Property", property), ("MethodDefinition", methodDefinition),
  ("FunctionDeclaration", functionDeclaration), ("FunctionExpression", functionExpression),
  ("ArrowFunctionExpression", arrowFunctionExpression),
  ("ClassDeclaration", classDeclaration), ("ClassExpression", classExpression),
  ("AssignmentExpression", assignmentExpression), ("BinaryExpression", binaryExpression),
  ("LogicalExpression", logicalExpression), ("AssignmentPattern", assignmentPattern),
  ("UnaryExpression", unaryExpression), ("UpdateExpression", updateExpression),
  ("SpreadElement", spreadElement), ("RestElement", restElement),
  ("ExperimentalSpreadProperty", experimentalSpreadProperty),
  ("AwaitExpression", awaitExpression), ("YieldExpression", yieldExpression),
  ("ThrowStatement", throwStatement), ("CallExpression", callExpression),
  ("NewExpression", newExpression), ("MemberExpression", memberExpression),
  ("ConditionalExpression", conditionalExpression), ("SequenceExpression", sequenceExpression),
  ("TemplateLiteral", templateLiteral), ("TemplateElement", templateElement),
  ("TaggedTemplateExpression", taggedTemplateExpression), ("MetaProperty", metaProperty),
  ("VariableDeclaration", variableDeclaration), ("VariableDeclarator", variableDeclarator),
  ("IfStatement", ifStatement), ("ReturnStatement", returnStatement),
  ("ForStatement", forStatement), ("ForInStatement", forInStatement),
  ("ForOfStatement", forOfStatement), ("WhileStatement", whileStatement),
  ("DoWhileStatement", doWhileStatement), ("SwitchStatement", switchStatement),
  ("SwitchCase", switchCase), ("TryStatement", tryStatement), ("CatchClause", catchClause),
  ("LabeledStatement", labeledStatement), ("BreakStatement", breakStatement),
  ("ContinueStatement", continueStatement), ("WithStatement", withStatement),
  ("ImportDeclaration", importDeclaration), ("ImportSpecifier", importSpecifier),
  ("ImportDefaultSpecifier", importDefaultSpecifier),
  ("ImportNamespaceSpecifier", importNamespaceSpecifier),
  ("ExportDefaultSpecifier", exportDefaultSpecifier),
  ("ExportNamedDeclaration", exportNamedDeclaration), ("ExportSpecifier", exportSpecifier),
  ("ExportDefaultDeclaration", exportDefaultDeclaration),
  ("ExportAllDeclaration", exportAllDeclaration)]

def ofName (s : String) : Kind :=
  (names.lookup s).getD unknown

def isFunction : Kind → Bool
  | functionDeclaration | functionExpression | arrowFunctionExpression => true
  | _ => false

def bindsThis : Kind → Bool
  | functionDeclaration | functionExpression => true
  | _ => false

def isClass : Kind → Bool
  | classDeclaration | classExpression => true
  | _ => false

def opensBlock : Kind → Bool
  | blockStatement | forStatement | forInStatement | forOfStatement | switchStatement => true
  | _ => false

def isCall : Kind → Bool
  | callExpression | newExpression => true
  | _ => false

def isSpreadProperty : Kind → Bool
  | spreadElement | experimentalSpreadProperty => true
  | _ => false

def isBranching : Kind → Bool
  | conditionalExpression | logicalExpression => true
  | _ => false

end Kind

inductive Field where
  | body | expression | elements | properties | key | value | id | params | superClass
  | left | right | argument | callee | arguments | object | property | test | consequent
  | alternate | expressions | quasis | tag | quasi | metaWord | declarations | initial | update
  | discriminant | cases | block | handler | finalizer | param | label | specifiers | source
  | localName | imported | declaration | exported
  deriving DecidableEq, Repr

namespace Field

def names : List (String × Field) := [
  ("body", body), ("expression", expression), ("elements", elements),
  ("properties", properties), ("key", key), ("value", value), ("id", id), ("params", params),
  ("superClass", superClass), ("left", left), ("right", right), ("argument", argument),
  ("callee", callee), ("arguments", arguments), ("object", object), ("property", property),
  ("test", test), ("consequent", consequent), ("alternate", alternate),
  ("expressions", expressions), ("quasis", quasis), ("tag", tag), ("quasi", quasi),
  ("meta", metaWord), ("declarations", declarations), ("init", initial), ("update", update),
  ("discriminant", discriminant), ("cases", cases), ("block", block), ("handler", handler),
  ("finalizer", finalizer), ("param", param), ("label", label), ("specifiers", specifiers),
  ("source", source), ("local", localName), ("imported", imported),
  ("declaration", declaration), ("exported", exported)]

def ofName? (s : String) : Option Field :=
  names.lookup s

def name (f : Field) : String :=
  ((names.find? fun e => e.2 == f).map (·.1)).getD ""

end Field

end ScriptAudit
