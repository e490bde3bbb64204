/-! # Kinds of tokens and nodes

One enumeration names every token and every node of a source tree. The tokens come first, so the
order alone tells them apart.
-/

namespace AutoProperty

/-- What a token or a node is. -/
inductive Kind where
  | endOfFileToken | badToken | identifierToken | numericLiteralToken | stringLiteralToken
  | characterLiteralToken
  | openBraceToken | closeBraceToken | openParenToken | closeParenToken | openBracketToken
  | closeBracketToken | semicolonToken | commaToken | dotToken | questionToken | equalsToken
  | equalsGreaterThanToken | plusEqualsToken | minusEqualsToken | plusToken | minusToken
  | asteriskToken | slashToken | percentToken | exclamationToken | equalsEqualsToken
  | exclamationEqualsToken | lessThanToken | greaterThanToken | lessThanEqualsToken
  | greaterThanEqualsToken | ampersandAmpersandToken | barBarToken | plusPlusToken
  | minusMinusToken
  | usingKeyword | namespaceKeyword | classKeyword | structKeyword | publicKeyword | privateKeyword
  | protectedKeyword | internalKeyword | staticKeyword | readOnlyKeyword | virtualKeyword
  | overrideKeyword | abstractKeyword | sealedKeyword | returnKeyword | ifKeyword | elseKeyword
  | newKeyword | thisKeyword | nullKeyword | trueKeyword | falseKeyword | voidKeyword | intKeyword
  | longKeyword | doubleKeyword | floatKeyword | decimalKeyword | boolKeyword | stringKeyword
  | charKeyword | objectKeyword
  | getKeyword | setKeyword | initKeyword | partialKeyword
  | compilationUnit | usingDirective | namespaceDeclaration | fileScopedNamespaceDeclaration
  | classDeclaration | structDeclaration | fieldDeclaration | variableDeclaration
  | variableDeclarator | equalsValueClause | propertyDeclaration | accessorList
  | getAccessorDeclaration | setAccessorDeclaration | initAccessorDeclaration
  | arrowExpressionClause | methodDeclaration | constructorDeclaration | parameterList | parameter
  | argumentList | argument | block | returnStatement | localDeclarationStatement
  | expressionStatement | ifStatement | elseClause | emptyStatement | predefinedType
  | identifierName | qualifiedName | nullableType | arrayType | memberAccessExpression
  | invocationExpression | objectCreationExpression | assignmentExpression | binaryExpression
  | prefixUnaryExpression | postfixUnaryExpression | parenthesizedExpression | literalExpression
  | thisExpression | skippedTokens
deriving DecidableEq, Inhabited

namespace Kind

def all : List Kind :=
  [.endOfFileToken, .badToken, .identifierToken, .numericLiteralToken, .stringLiteralToken,
   .characterLiteralToken, .openBraceToken, .closeBraceToken, .openParenToken, .closeParenToken,
   .openBracketToken, .closeBracketToken, .semicolonToken, .commaToken, .dotToken, .questionToken,
   .equalsToken, .equalsGreaterThanToken, .plusEqualsToken, .minusEqualsToken, .plusToken,
   .minusToken, .asteriskToken, .slashToken, .percentToken, .exclamationToken, .equalsEqualsToken,
   .exclamationEqualsToken, .lessThanToken, .greaterThanToken, .lessThanEqualsToken,
   .greaterThanEqualsToken, .ampersandAmpersandToken, .barBarToken, .plusPlusToken,
   .minusMinusToken, .usingKeyword, .namespaceKeyword, .classKeyword, .structKeyword,
   .publicKeyword, .privateKeyword, .protectedKeyword, .internalKeyword, .staticKeyword,
   .readOnlyKeyword, .virtualKeyword, .overrideKeyword, .abstractKeyword, .sealedKeyword,
   .returnKeyword, .ifKeyword, .elseKeyword, .newKeyword, .thisKeyword, .nullKeyword, .trueKeyword,
   .falseKeyword, .voidKeyword, .intKeyword, .longKeyword, .doubleKeyword, .floatKeyword,
   .decimalKeyword, .boolKeyword, .stringKeyword, .charKeyword, .objectKeyword, .getKeyword,
   .setKeyword, .initKeyword, .partialKeyword, .compilationUnit, .usingDirective,
   .namespaceDeclaration, .fileScopedNamespaceDeclaration, .classDeclaration, .structDeclaration,
   .fieldDeclaration, .variableDeclaration, .variableDeclarator, .equalsValueClause,
   .propertyDeclaration, .accessorList, .getAccessorDeclaration, .setAccessorDeclaration,
   .initAccessorDeclaration, .arrowExpressionClause, .methodDeclaration, .constructorDeclaration,
   .parameterList, .parameter, .argumentList, .argument, .block, .returnStatement,
   .localDeclarationStatement, .expressionStatement, .ifStatement, .elseClause, .emptyStatement,
   .predefinedType, .identifierName, .qualifiedName, .nullableType, .arrayType,
   .memberAccessExpression, .invocationExpression, .objectCreationExpression, .assignmentExpression,
   .binaryExpression, .prefixUnaryExpression, .postfixUnaryExpression, .parenthesizedExpression,
   .literalExpression, .thisExpression, .skippedTokens]

def name : Kind → String
  | .endOfFileToken => "EndOfFileToken"
  | .badToken => "BadToken"
  | .identifierToken => "IdentifierToken"
  | .numericLiteralToken => "NumericLiteralToken"
  | .stringLiteralToken => "StringLiteralToken"
  | .characterLiteralToken => "CharacterLiteralToken"
  | .openBraceToken => "OpenBraceToken"
  | .closeBraceToken => "CloseBraceToken"
  | .openParenToken => "OpenParenToken"
  | .closeParenToken => "CloseParenToken"
  | .openBracketToken => "OpenBracketToken"
  | .closeBracketToken => "CloseBracketToken"
  | .semicolonToken => "SemicolonToken"
  | .commaToken => "CommaToken"
  | .dotToken => "DotToken"
  | .questionToken => "QuestionToken"
  | .equalsToken => "EqualsToken"
  | .equalsGreaterThanToken => "EqualsGreaterThanToken"
  | .plusEqualsToken => "PlusEqualsToken"
  | .minusEqualsToken => "MinusEqualsToken"
  | .plusToken => "PlusToken"
  | .minusToken => "MinusToken"
  | .asteriskToken => "AsteriskToken"
  | .slashToken => "SlashToken"
  | .percentToken => "PercentToken"
  | .exclamationToken => "ExclamationToken"
  | .equalsEqualsToken => "EqualsEqualsToken"
  | .exclamationEqualsToken => "ExclamationEqualsToken"
  | .lessThanToken => "LessThanToken"
  | .greaterThanToken => "GreaterThanToken"
  | .lessThanEqualsToken => "LessThanEqualsToken"
  | .greaterThanEqualsToken => "GreaterThanEqualsToken"
  | .ampersandAmpersandToken => "AmpersandAmpersandToken"
  | .barBarToken => "BarBarToken"
  | .plusPlusToken => "PlusPlusToken"
  | .minusMinusToken => "MinusMinusToken"
  | .usingKeyword => "UsingKeyword"
  | .namespaceKeyword => "NamespaceKeyword"
  | .classKeyword => "ClassKeyword"
  | .structKeyword => "StructKeyword"
  | .publicKeyword => "PublicKeyword"
  | .privateKeyword => "PrivateKeyword"
  | .protectedKeyword => "ProtectedKeyword"
  | .internalKeyword => "InternalKeyword"
  | .staticKeyword => "StaticKeyword"
  | .readOnlyKeyword => "ReadOnlyKeyword"
  | .virtualKeyword => "VirtualKeyword"
  | .overrideKeyword => "OverrideKeyword"
  | .abstractKeyword => "AbstractKeyword"
  | .sealedKeyword => "SealedKeyword"
  | .returnKeyword => "ReturnKeyword"
  | .ifKeyword => "IfKeyword"
  | .elseKeyword => "ElseKeyword"
  | .newKeyword => "NewKeyword"
  | .thisKeyword => "ThisKeyword"
  | .nullKeyword => "NullKeyword"
  | .trueKeyword => "TrueKeyword"
  | .falseKeyword => "FalseKeyword"
  | .voidKeyword => "VoidKeyword"
  | .intKeyword => "IntKeyword"
  | .longKeyword => "LongKeyword"
  | .doubleKeyword => "DoubleKeyword"
  | .floatKeyword => "FloatKeyword"
  | .decimalKeyword => "DecimalKeyword"
  | .boolKeyword => "BoolKeyword"
  | .stringKeyword => "StringKeyword"
  | .charKeyword => "CharKeyword"
  | .objectKeyword => "ObjectKeyword"
  | .getKeyword => "GetKeyword"
  | .setKeyword => "SetKeyword"
  | .initKeyword => "InitKeyword"
  | .partialKeyword => "PartialKeyword"
  | .compilationUnit => "CompilationUnit"
  | .usingDirective => "UsingDirective"
  | .namespaceDeclaration => "NamespaceDeclaration"
  | .fileScopedNamespaceDeclaration => "FileScopedNamespaceDeclaration"
  | .classDeclaration => "ClassDeclaration"
  | .structDeclaration => "StructDeclaration"
  | .fieldDeclaration => "FieldDeclaration"
  | .variableDeclaration => "VariableDeclaration"
  | .variableDeclarator => "VariableDeclarator"
  | .equalsValueClause => "EqualsValueClause"
  | .propertyDeclaration => "PropertyDeclaration"
  | .accessorList => "AccessorList"
  | .getAccessorDeclaration => "GetAccessorDeclaration"
  | .setAccessorDeclaration => "SetAccessorDeclaration"
  | .initAccessorDeclaration => "InitAccessorDeclaration"
  | .arrowExpressionClause => "ArrowExpressionClause"
  | .methodDeclaration => "MethodDeclaration"
  | .constructorDeclaration => "ConstructorDeclaration"
  | .parameterList => "ParameterList"
  | .parameter => "Parameter"
  | .argumentList => "ArgumentList"
  | .argument => "Argument"
  | .block => "Block"
  | .returnStatement => "ReturnStatement"
  | .localDeclarationStatement => "LocalDeclarationStatement"
  | .expressionStatement => "ExpressionStatement"
  | .ifStatement => "IfStatement"
  | .elseClause => "ElseClause"
  | .emptyStatement => "EmptyStatement"
  | .predefinedType => "PredefinedType"
  | .identifierName => "IdentifierName"
  | .qualifiedName => "QualifiedName"
  | .nullableType => "NullableType"
  | .arrayType => "ArrayType"
  | .memberAccessExpression => "MemberAccessExpression"
  | .invocationExpression => "InvocationExpression"
  | .objectCreationExpression => "ObjectCreationExpression"
  | .assignmentExpression => "AssignmentExpression"
  | .binaryExpression => "BinaryExpression"
  | .prefixUnaryExpression => "PrefixUnaryExpression"
  | .postfixUnaryExpression => "PostfixUnaryExpression"
  | .parenthesizedExpression => "ParenthesizedExpression"
  | .literalExpression => "LiteralExpression"
  | .thisExpression => "ThisExpression"
  | .skippedTokens => "SkippedTokens"

def ofName? (name : String) : Option Kind :=
  all.find? (·.name == name)

def order (kind : Kind) : Nat :=
  kind.ctorIdx

def isToken (kind : Kind) : Bool :=
  kind.order < compilationUnit.order

def isNode (kind : Kind) : Bool :=
  !kind.isToken

/-- The text of punctuation and of keywords, which never varies. -/
def fixedText? : Kind → Option String
  | .openBraceToken => some "\x7b"
  | .closeBraceToken => some "\x7d"
  | .openParenToken => some "("
  | .closeParenToken => some ")"
  | .openBracketToken => some "["
  | .closeBracketToken => some "]"
  | .semicolonToken => some ";"
  | .commaToken => some ","
  | .dotToken => some "."
  | .questionToken => some "?"
  | .equalsToken => some "="
  | .equalsGreaterThanToken => some "=>"
  | .plusEqualsToken => some "+="
  | .minusEqualsToken => some "-="
  | .plusToken => some "+"
  | .minusToken => some "-"
  | .asteriskToken => some "*"
  | .slashToken => some "/"
  | .percentToken => some "%"
  | .exclamationToken => some "!"
  | .equalsEqualsToken => some "=="
  | .exclamationEqualsToken => some "!="
  | .lessThanToken => some "<"
  | .greaterThanToken => some ">"
  | .lessThanEqualsToken => some "<="
  | .greaterThanEqualsToken => some ">="
  | .ampersandAmpersandToken => some "&&"
  | .barBarToken => some "||"
  | .plusPlusToken => some "++"
  | .minusMinusToken => some "--"
  | .usingKeyword => some "using"
  | .namespaceKeyword => some "namespace"
  | .classKeyword => some "class"
  | .structKeyword => some "struct"
  | .publicKeyword => some "public"
  | .privateKeyword => some "private"
  | .protectedKeyword => some "protected"
  | .internalKeyword => some "internal"
  | .staticKeyword => some "static"
  | .readOnlyKeyword => some "readonly"
  | .virtualKeyword => some "virtual"
  | .overrideKeyword => some "override"
  | .abstractKeyword => some "abstract"
  | .sealedKeyword => some "sealed"
  | .returnKeyword => some "return"
  | .ifKeyword => some "if"
  | .elseKeyword => some "else"
  | .newKeyword => some "new"
  | .thisKeyword => some "this"
  | .nullKeyword => some "null"
  | .trueKeyword => some "true"
  | .falseKeyword => some "false"
  | .voidKeyword => some "void"
  | .intKeyword => some "int"
  | .longKeyword => some "long"
  | .doubleKeyword => some "double"
  | .floatKeyword => some "float"
  | .decimalKeyword => some "decimal"
  | .boolKeyword => some "bool"
  | .stringKeyword => some "string"
  | .charKeyword => some "char"
  | .objectKeyword => some "object"
  | .getKeyword => some "get"
  | .setKeyword => some "set"
  | .initKeyword => some "init"
  | .partialKeyword => some "partial"
  | _ => none

def reserved : List Kind :=
  [.usingKeyword, .namespaceKeyword, .classKeyword, .structKeyword, .publicKeyword, .privateKeyword,
   .protectedKeyword, .internalKeyword, .staticKeyword, .readOnlyKeyword, .virtualKeyword,
   .overrideKeyword, .abstractKeyword, .sealedKeyword, .returnKeyword, .ifKeyword, .elseKeyword,
   .newKeyword, .thisKeyword, .nullKeyword, .trueKeyword, .falseKeyword, .voidKeyword, .intKeyword,
   .longKeyword, .doubleKeyword, .floatKeyword, .decimalKeyword, .boolKeyword, .stringKeyword,
   .charKeyword, .objectKeyword]

/-- The keyword with the given text, if it is reserved. Words that are keywords only in some places
(`get`, `set`, `init`, `partial`) are identifiers here. -/
def ofReservedWord? (word : String) : Option Kind :=
  reserved.find? (·.fixedText? == some word)

def isAccessibility : Kind → Bool
  | .publicKeyword | .privateKeyword | .protectedKeyword | .internalKeyword => true
  | _ => false

def isModifier : Kind → Bool
  | .staticKeyword | .readOnlyKeyword | .virtualKeyword | .overrideKeyword | .abstractKeyword
  | .sealedKeyword | .partialKeyword => true
  | kind => kind.isAccessibility

def isPredefinedType : Kind → Bool
  | .voidKeyword | .intKeyword | .longKeyword | .doubleKeyword | .floatKeyword | .decimalKeyword
  | .boolKeyword | .stringKeyword | .charKeyword | .objectKeyword => true
  | _ => false

def isAccessor : Kind → Bool
  | .getAccessorDeclaration | .setAccessorDeclaration | .initAccessorDeclaration => true
  | _ => false

def isType : Kind → Bool
  | .predefinedType | .identifierName | .qualifiedName | .nullableType | .arrayType => true
  | _ => false

end Kind

end AutoProperty
