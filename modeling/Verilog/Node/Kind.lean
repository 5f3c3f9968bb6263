/-!
# Kinds of nodes

Every node of a tree has a kind. The names fall into three families: `pp` for the productions of
the preprocessor, `pa` for those of source text and the classes of its leaves, and `sl` for leaves
and marks that belong to no production. Kinds are listed in a fixed order, which is the order they
are enumerated in.
-/

namespace Verilog

/-- The kind of a node of a tree. -/
inductive NodeKind where
  | slNoType | slStringConst | slIntConst | slRealConst | slStringLiteral | slUnparsableText
  | slPreprocBegin | slPreprocEnd
  | ppTopLevelRule | ppSourceText | ppTextBlob | ppComment | ppString | ppNumber | ppPsIdentifier
  | ppEscapedIdentifier | ppIncludeDirective | ppLineDirective | ppTimescaleDirective
  | ppResetallDirective | ppDefaultNettypeDirective | ppUndefDirective | ppUndefineallDirective
  | ppIfdefDirective | ppIfndefDirective | ppElsifDirective | ppElseDirective | ppEndifDirective
  | ppCelldefineDirective | ppEndcelldefineDirective | ppSvFileDirective | ppSvLineDirective
  | ppSimpleNoArgsMacroDefinition | ppSimpleArgsMacroDefinition | ppMultilineNoArgsMacroDefinition
  | ppMultilineArgsMacroDefinition | ppFormalArgList | ppFormalArg | ppDefaultValue
  | ppSimpleMacroDefinitionBody | ppEscapedMacroDefinitionBody | ppMacroInstanceWithArgs
  | ppMacroInstanceNoArgs | ppMacroActualArgs | ppMacroArg
  | paTopLevelRule | paSourceText | paModuleDeclaration | paModuleKeyword | paInterfaceDeclaration
  | paInterface | paUdpDeclaration | paPrimitive | paUdpBody | paPackageDeclaration
  | paProgramDeclaration | paClassDeclaration | paConfigDeclaration | paCheckerDeclaration
  | paOpaqueBody | paEndLabel | paParameterPortList | paListOfPorts | paPort
  | paListOfPortDeclarations | paAnsiPortDeclaration | paPortDeclaration | paInputDeclaration
  | paOutputDeclaration | paInoutDeclaration | paListOfPortIdentifiers | paPortDirInp | paPortDirOut
  | paPortDirInout | paPortDirRef | paNetTypeWire | paNetTypeUwire | paNetTypeTri | paNetTypeWand
  | paNetTypeWor | paNetTypeSupply0 | paNetTypeSupply1 | paDataType | paIntVecTypeLogic
  | paIntVecTypeReg | paIntVecTypeBit | paIntegerAtomTypeInt | paIntegerAtomTypeInteger
  | paIntegerAtomTypeByte | paIntegerAtomTypeShortint | paIntegerAtomTypeLongInt | paNonIntTypeReal
  | paStringType | paSigningSigned | paSigningUnsigned | paPackedDimension | paUnpackedDimension
  | paConstantRange | paInterfacePortHeader | paClassScope | paClassType | paParameterDeclaration
  | paLocalParameterDeclaration | paParamAssignment | paTypeDeclaration | paNetDeclaration
  | paDataDeclaration | paNetDeclAssignment | paVariableDeclAssignment | paContinuousAssign
  | paNetAssignment | paNetLvalue | paVariableLvalue | paInitialConstruct | paAlwaysConstruct
  | paAlwaysKeyword | paAlways | paAlwaysComb | paAlwaysFf | paAlwaysLatch | paEventControl
  | paEventExpression | paEdgePosedge | paEdgeNegedge | paModuleInstantiation
  | paParameterValueAssignment | paOrderedParameterAssignment | paNamedParameterAssignment
  | paHierarchicalInstance | paNameOfInstance | paListOfPortConnections | paOrderedPortConnection
  | paNamedPortConnection | paDotStar | paGateInstantiation | paNInputGateInstance | paNInpGateAnd
  | paNInpGateNand | paNInpGateOr | paNInpGateNor | paNInpGateXor | paNInpGateXnor
  | paGenvarDeclaration | paModportDeclaration | paModportItem | paModportPortsDeclaration
  | paModportSimplePortsDeclaration | paModportSimplePort | paModportClockingDeclaration
  | paClockingDeclaration | paFunctionDeclaration | paTaskDeclaration | paGenerateRegion
  | paGenerateBlock | paGenerateBeginEndBlock | paConditionalGenerateConstruct
  | paIfGenerateConstruct | paIf | paElse | paCaseGenerateConstruct | paCaseGenerateItem
  | paLoopGenerateConstruct | paGenvarInitialization | paGenvarDeclAssignment | paGenvarIteration
  | paSeqBlock | paSystemTfCall | paSystemTaskNames | paListOfArguments | paNonblockingAssignment
  | paOperatorAssignment | paConditionalStatement | paSubroutineCallStatement
  | paProceduralTimingControlStatement | paDelayControl | paCaseStatement | paCaseItem
  | paLoopStatement | paForInitialization | paForStep | paPackageImportDeclaration | paExpression
  | paConstantExpression | paPrimary | paConstantPrimary | paPrimaryLiteral | paConcatenation
  | paMultipleConcatenation | paSelect | paBitSelect | paPartSelectRange | paComplexFuncCall
  | paStringValue | paQmark | paBinOpPlus | paBinOpMinus | paBinOpMult | paBinOpDiv | paBinOpPercent
  | paBinOpMultMult | paBinOpShiftLeft | paBinOpShiftRight | paBinOpArithShiftLeft
  | paBinOpArithShiftRight | paBinOpLess | paBinOpLessEqual | paBinOpGreat | paBinOpGreatEqual
  | paBinOpEquiv | paBinOpNot | paBinOpFourStateLogicEqual | paBinOpFourStateLogicNotEqual
  | paBinOpBitwAnd | paBinOpBitwOr | paBinOpBitwXor | paBinOpBitwXnor | paBinOpReductNand
  | paBinOpReductNor | paBinOpLogicAnd | paBinOpLogicOr | paUnaryPlus | paUnaryMinus | paUnaryNot
  | paUnaryTilda | paUnaryBitwAnd | paUnaryBitwOr | paUnaryBitwXor | paUnaryReductNand
  | paUnaryReductNor | paUnaryReductXnor | paAssignOpAssign | paAssignOpAdd | paAssignOpSub
  | paAssignOpMult | paAssignOpDiv | paAssignOpModulo | paAssignOpBitwAnd | paAssignOpBitwOr
  | paAssignOpBitwXor | paAssignOpBitwLeftShift | paAssignOpBitwRightShift
  | paAssignOpArithShiftLeft | paAssignOpArithShiftRight | paIncDecPlusPlus | paIncDecMinusMinus
  | paOneLineComment | paBlockComment | paWhiteSpace
  deriving DecidableEq, Repr, Inhabited

namespace NodeKind

/-- The name a kind is printed under. -/
def name : NodeKind → String
  | .slNoType => "slNoType"
  | .slStringConst => "slStringConst"
  | .slIntConst => "slIntConst"
  | .slRealConst => "slRealConst"
  | .slStringLiteral => "slStringLiteral"
  | .slUnparsableText => "slUnparsable_Text"
  | .slPreprocBegin => "slPreprocBegin"
  | .slPreprocEnd => "slPreprocEnd"
  | .ppTopLevelRule => "ppTop_level_rule"
  | .ppSourceText => "ppSource_text"
  | .ppTextBlob => "ppText_blob"
  | .ppComment => "ppComment"
  | .ppString => "ppString"
  | .ppNumber => "ppNumber"
  | .ppPsIdentifier => "ppPs_identifier"
  | .ppEscapedIdentifier => "ppEscaped_identifier"
  | .ppIncludeDirective => "ppInclude_directive"
  | .ppLineDirective => "ppLine_directive"
  | .ppTimescaleDirective => "ppTimescale_directive"
  | .ppResetallDirective => "ppResetall_directive"
  | .ppDefaultNettypeDirective => "ppDefault_nettype_directive"
  | .ppUndefDirective => "ppUndef_directive"
  | .ppUndefineallDirective => "ppUndefineall_directive"
  | .ppIfdefDirective => "ppIfdef_directive"
  | .ppIfndefDirective => "ppIfndef_directive"
  | .ppElsifDirective => "ppElsif_directive"
  | .ppElseDirective => "ppElse_directive"
  | .ppEndifDirective => "ppEndif_directive"
  | .ppCelldefineDirective => "ppCelldefine_directive"
  | .ppEndcelldefineDirective => "ppEndcelldefine_directive"
  | .ppSvFileDirective => "ppSv_file_directive"
  | .ppSvLineDirective => "ppSv_line_directive"
  | .ppSimpleNoArgsMacroDefinition => "ppSimple_no_args_macro_definition"
  | .ppSimpleArgsMacroDefinition => "ppSimple_args_macro_definition"
  | .ppMultilineNoArgsMacroDefinition => "ppMultiline_no_args_macro_definition"
  | .ppMultilineArgsMacroDefinition => "ppMultiline_args_macro_definition"
  | .ppFormalArgList => "ppFormal_arg_list"
  | .ppFormalArg => "ppFormal_arg"
  | .ppDefaultValue => "ppDefault_value"
  | .ppSimpleMacroDefinitionBody => "ppSimple_macro_definition_body"
  | .ppEscapedMacroDefinitionBody => "ppEscaped_macro_definition_body"
  | .ppMacroInstanceWithArgs => "ppMacroInstanceWithArgs"
  | .ppMacroInstanceNoArgs => "ppMacroInstanceNoArgs"
  | .ppMacroActualArgs => "ppMacro_actual_args"
  | .ppMacroArg => "ppMacro_arg"
  | .paTopLevelRule => "paTop_level_rule"
  | .paSourceText => "paSource_text"
  | .paModuleDeclaration => "paModule_declaration"
  | .paModuleKeyword => "paModule_keyword"
  | .paInterfaceDeclaration => "paInterface_declaration"
  | .paInterface => "paINTERFACE"
  | .paUdpDeclaration => "paUdp_declaration"
  | .paPrimitive => "paPRIMITIVE"
  | .paUdpBody => "paUdp_body"
  | .paPackageDeclaration => "paPackage_declaration"
  | .paProgramDeclaration => "paProgram_declaration"
  | .paClassDeclaration => "paClass_declaration"
  | .paConfigDeclaration => "paConfig_declaration"
  | .paCheckerDeclaration => "paChecker_declaration"
  | .paOpaqueBody => "paOpaque_body"
  | .paEndLabel => "paEnd_label"
  | .paParameterPortList => "paParameter_port_list"
  | .paListOfPorts => "paList_of_ports"
  | .paPort => "paPort"
  | .paListOfPortDeclarations => "paList_of_port_declarations"
  | .paAnsiPortDeclaration => "paAnsi_port_declaration"
  | .paPortDeclaration => "paPort_declaration"
  | .paInputDeclaration => "paInput_declaration"
  | .paOutputDeclaration => "paOutput_declaration"
  | .paInoutDeclaration => "paInout_declaration"
  | .paListOfPortIdentifiers => "paList_of_port_identifiers"
  | .paPortDirInp => "paPortDir_Inp"
  | .paPortDirOut => "paPortDir_Out"
  | .paPortDirInout => "paPortDir_Inout"
  | .paPortDirRef => "paPortDir_Ref"
  | .paNetTypeWire => "paNetType_Wire"
  | .paNetTypeUwire => "paNetType_Uwire"
  | .paNetTypeTri => "paNetType_Tri"
  | .paNetTypeWand => "paNetType_Wand"
  | .paNetTypeWor => "paNetType_Wor"
  | .paNetTypeSupply0 => "paNetType_Supply0"
  | .paNetTypeSupply1 => "paNetType_Supply1"
  | .paDataType => "paData_type"
  | .paIntVecTypeLogic => "paIntVec_TypeLogic"
  | .paIntVecTypeReg => "paIntVec_TypeReg"
  | .paIntVecTypeBit => "paIntVec_TypeBit"
  | .paIntegerAtomTypeInt => "paIntegerAtomType_Int"
  | .paIntegerAtomTypeInteger => "paIntegerAtomType_Integer"
  | .paIntegerAtomTypeByte => "paIntegerAtomType_Byte"
  | .paIntegerAtomTypeShortint => "paIntegerAtomType_Shortint"
  | .paIntegerAtomTypeLongInt => "paIntegerAtomType_LongInt"
  | .paNonIntTypeReal => "paNonIntType_Real"
  | .paStringType => "paString_type"
  | .paSigningSigned => "paSigning_Signed"
  | .paSigningUnsigned => "paSigning_Unsigned"
  | .paPackedDimension => "paPacked_dimension"
  | .paUnpackedDimension => "paUnpacked_dimension"
  | .paConstantRange => "paConstant_range"
  | .paInterfacePortHeader => "paInterface_port_header"
  | .paClassScope => "paClass_scope"
  | .paClassType => "paClass_type"
  | .paParameterDeclaration => "paParameter_declaration"
  | .paLocalParameterDeclaration => "paLocal_parameter_declaration"
  | .paParamAssignment => "paParam_assignment"
  | .paTypeDeclaration => "paType_declaration"
  | .paNetDeclaration => "paNet_declaration"
  | .paDataDeclaration => "paData_declaration"
  | .paNetDeclAssignment => "paNet_decl_assignment"
  | .paVariableDeclAssignment => "paVariable_decl_assignment"
  | .paContinuousAssign => "paContinuous_assign"
  | .paNetAssignment => "paNet_assignment"
  | .paNetLvalue => "paNet_lvalue"
  | .paVariableLvalue => "paVariable_lvalue"
  | .paInitialConstruct => "paInitial_construct"
  | .paAlwaysConstruct => "paAlways_construct"
  | .paAlwaysKeyword => "paAlways_keyword"
  | .paAlways => "paALWAYS"
  | .paAlwaysComb => "paALWAYS_COMB"
  | .paAlwaysFf => "paALWAYS_FF"
  | .paAlwaysLatch => "paALWAYS_LATCH"
  | .paEventControl => "paEvent_control"
  | .paEventExpression => "paEvent_expression"
  | .paEdgePosedge => "paEdge_Posedge"
  | .paEdgeNegedge => "paEdge_Negedge"
  | .paModuleInstantiation => "paModule_instantiation"
  | .paParameterValueAssignment => "paParameter_value_assignment"
  | .paOrderedParameterAssignment => "paOrdered_parameter_assignment"
  | .paNamedParameterAssignment => "paNamed_parameter_assignment"
  | .paHierarchicalInstance => "paHierarchical_instance"
  | .paNameOfInstance => "paName_of_instance"
  | .paListOfPortConnections => "paList_of_port_connections"
  | .paOrderedPortConnection => "paOrdered_port_connection"
  | .paNamedPortConnection => "paNamed_port_connection"
  | .paDotStar => "paDOTSTAR"
  | .paGateInstantiation => "paGate_instantiation"
  | .paNInputGateInstance => "paN_input_gate_instance"
  | .paNInpGateAnd => "paNInpGate_And"
  | .paNInpGateNand => "paNInpGate_Nand"
  | .paNInpGateOr => "paNInpGate_Or"
  | .paNInpGateNor => "paNInpGate_Nor"
  | .paNInpGateXor => "paNInpGate_Xor"
  | .paNInpGateXnor => "paNInpGate_Xnor"
  | .paGenvarDeclaration => "paGenvar_declaration"
  | .paModportDeclaration => "paModport_declaration"
  | .paModportItem => "paModport_item"
  | .paModportPortsDeclaration => "paModport_ports_declaration"
  | .paModportSimplePortsDeclaration => "paModport_simple_ports_declaration"
  | .paModportSimplePort => "paModport_simple_port"
  | .paModportClockingDeclaration => "paModport_clocking_declaration"
  | .paClockingDeclaration => "paClocking_declaration"
  | .paFunctionDeclaration => "paFunction_declaration"
  | .paTaskDeclaration => "paTask_declaration"
  | .paGenerateRegion => "paGenerate_region"
  | .paGenerateBlock => "paGenerate_block"
  | .paGenerateBeginEndBlock => "paGenerate_begin_end_block"
  | .paConditionalGenerateConstruct => "paConditional_generate_construct"
  | .paIfGenerateConstruct => "paIf_generate_construct"
  | .paIf => "paIF"
  | .paElse => "paELSE"
  | .paCaseGenerateConstruct => "paCase_generate_construct"
  | .paCaseGenerateItem => "paCase_generate_item"
  | .paLoopGenerateConstruct => "paLoop_generate_construct"
  | .paGenvarInitialization => "paGenvar_initialization"
  | .paGenvarDeclAssignment => "paGenvar_decl_assignment"
  | .paGenvarIteration => "paGenvar_iteration"
  | .paSeqBlock => "paSeq_block"
  | .paSystemTfCall => "paSystem_task"
  | .paSystemTaskNames => "paSystem_task_names"
  | .paListOfArguments => "paList_of_arguments"
  | .paNonblockingAssignment => "paNonblocking_assignment"
  | .paOperatorAssignment => "paOperator_assignment"
  | .paConditionalStatement => "paConditional_statement"
  | .paSubroutineCallStatement => "paSubroutine_call_statement"
  | .paProceduralTimingControlStatement => "paProcedural_timing_control_statement"
  | .paDelayControl => "paDelay_control"
  | .paCaseStatement => "paCase_statement"
  | .paCaseItem => "paCase_item"
  | .paLoopStatement => "paLoop_statement"
  | .paForInitialization => "paFor_initialization"
  | .paForStep => "paFor_step"
  | .paPackageImportDeclaration => "paPackage_import_declaration"
  | .paExpression => "paExpression"
  | .paConstantExpression => "paConstant_expression"
  | .paPrimary => "paPrimary"
  | .paConstantPrimary => "paConstant_primary"
  | .paPrimaryLiteral => "paPrimary_literal"
  | .paConcatenation => "paConcatenation"
  | .paMultipleConcatenation => "paMultiple_concatenation"
  | .paSelect => "paSelect"
  | .paBitSelect => "paBit_select"
  | .paPartSelectRange => "paPart_select_range"
  | .paComplexFuncCall => "paComplex_func_call"
  | .paStringValue => "paString_value"
  | .paQmark => "paQmark"
  | .paBinOpPlus => "paBinOp_Plus"
  | .paBinOpMinus => "paBinOp_Minus"
  | .paBinOpMult => "paBinOp_Mult"
  | .paBinOpDiv => "paBinOp_Div"
  | .paBinOpPercent => "paBinOp_Percent"
  | .paBinOpMultMult => "paBinOp_MultMult"
  | .paBinOpShiftLeft => "paBinOp_ShiftLeft"
  | .paBinOpShiftRight => "paBinOp_ShiftRight"
  | .paBinOpArithShiftLeft => "paBinOp_ArithShiftLeft"
  | .paBinOpArithShiftRight => "paBinOp_ArithShiftRight"
  | .paBinOpLess => "paBinOp_Less"
  | .paBinOpLessEqual => "paBinOp_LessEqual"
  | .paBinOpGreat => "paBinOp_Great"
  | .paBinOpGreatEqual => "paBinOp_GreatEqual"
  | .paBinOpEquiv => "paBinOp_Equiv"
  | .paBinOpNot => "paBinOp_Not"
  | .paBinOpFourStateLogicEqual => "paBinOp_FourStateLogicEqual"
  | .paBinOpFourStateLogicNotEqual => "paBinOp_FourStateLogicNotEqual"
  | .paBinOpBitwAnd => "paBinOp_BitwAnd"
  | .paBinOpBitwOr => "paBinOp_BitwOr"
  | .paBinOpBitwXor => "paBinOp_BitwXor"
  | .paBinOpBitwXnor => "paBinOp_BitwXnor"
  | .paBinOpReductNand => "paBinOp_ReductNand"
  | .paBinOpReductNor => "paBinOp_ReductNor"
  | .paBinOpLogicAnd => "paBinOp_LogicAnd"
  | .paBinOpLogicOr => "paBinOp_LogicOr"
  | .paUnaryPlus => "paUnary_Plus"
  | .paUnaryMinus => "paUnary_Minus"
  | .paUnaryNot => "paUnary_Not"
  | .paUnaryTilda => "paUnary_Tilda"
  | .paUnaryBitwAnd => "paUnary_BitwAnd"
  | .paUnaryBitwOr => "paUnary_BitwOr"
  | .paUnaryBitwXor => "paUnary_BitwXor"
  | .paUnaryReductNand => "paUnary_ReductNand"
  | .paUnaryReductNor => "paUnary_ReductNor"
  | .paUnaryReductXnor => "paUnary_ReductXnor"
  | .paAssignOpAssign => "paAssignOp_Assign"
  | .paAssignOpAdd => "paAssignOp_Add"
  | .paAssignOpSub => "paAssignOp_Sub"
  | .paAssignOpMult => "paAssignOp_Mult"
  | .paAssignOpDiv => "paAssignOp_Div"
  | .paAssignOpModulo => "paAssignOp_Modulo"
  | .paAssignOpBitwAnd => "paAssignOp_BitwAnd"
  | .paAssignOpBitwOr => "paAssignOp_BitwOr"
  | .paAssignOpBitwXor => "paAssignOp_BitwXor"
  | .paAssignOpBitwLeftShift => "paAssignOp_BitwLeftShift"
  | .paAssignOpBitwRightShift => "paAssignOp_BitwRightShift"
  | .paAssignOpArithShiftLeft => "paAssignOp_ArithShiftLeft"
  | .paAssignOpArithShiftRight => "paAssignOp_ArithShiftRight"
  | .paIncDecPlusPlus => "paIncDec_PlusPlus"
  | .paIncDecMinusMinus => "paIncDec_MinusMinus"
  | .paOneLineComment => "paOne_line_comment"
  | .paBlockComment => "paBlock_comment"
  | .paWhiteSpace => "paWhite_space"

/-- All kinds, in order. -/
def all : List NodeKind := [
  .slNoType, .slStringConst, .slIntConst, .slRealConst, .slStringLiteral, .slUnparsableText,
  .slPreprocBegin, .slPreprocEnd, .ppTopLevelRule, .ppSourceText, .ppTextBlob, .ppComment,
  .ppString, .ppNumber, .ppPsIdentifier, .ppEscapedIdentifier, .ppIncludeDirective,
  .ppLineDirective, .ppTimescaleDirective, .ppResetallDirective, .ppDefaultNettypeDirective,
  .ppUndefDirective, .ppUndefineallDirective, .ppIfdefDirective, .ppIfndefDirective,
  .ppElsifDirective, .ppElseDirective, .ppEndifDirective, .ppCelldefineDirective,
  .ppEndcelldefineDirective, .ppSvFileDirective, .ppSvLineDirective, .ppSimpleNoArgsMacroDefinition,
  .ppSimpleArgsMacroDefinition, .ppMultilineNoArgsMacroDefinition, .ppMultilineArgsMacroDefinition,
  .ppFormalArgList, .ppFormalArg, .ppDefaultValue, .ppSimpleMacroDefinitionBody,
  .ppEscapedMacroDefinitionBody, .ppMacroInstanceWithArgs, .ppMacroInstanceNoArgs,
  .ppMacroActualArgs, .ppMacroArg, .paTopLevelRule, .paSourceText, .paModuleDeclaration,
  .paModuleKeyword, .paInterfaceDeclaration, .paInterface, .paUdpDeclaration, .paPrimitive,
  .paUdpBody, .paPackageDeclaration, .paProgramDeclaration, .paClassDeclaration,
  .paConfigDeclaration, .paCheckerDeclaration, .paOpaqueBody, .paEndLabel, .paParameterPortList,
  .paListOfPorts, .paPort, .paListOfPortDeclarations, .paAnsiPortDeclaration, .paPortDeclaration,
  .paInputDeclaration, .paOutputDeclaration, .paInoutDeclaration, .paListOfPortIdentifiers,
  .paPortDirInp, .paPortDirOut, .paPortDirInout, .paPortDirRef, .paNetTypeWire, .paNetTypeUwire,
  .paNetTypeTri, .paNetTypeWand, .paNetTypeWor, .paNetTypeSupply0, .paNetTypeSupply1, .paDataType,
  .paIntVecTypeLogic, .paIntVecTypeReg, .paIntVecTypeBit, .paIntegerAtomTypeInt,
  .paIntegerAtomTypeInteger, .paIntegerAtomTypeByte, .paIntegerAtomTypeShortint,
  .paIntegerAtomTypeLongInt, .paNonIntTypeReal, .paStringType, .paSigningSigned, .paSigningUnsigned,
  .paPackedDimension, .paUnpackedDimension, .paConstantRange, .paInterfacePortHeader, .paClassScope,
  .paClassType, .paParameterDeclaration, .paLocalParameterDeclaration, .paParamAssignment,
  .paTypeDeclaration, .paNetDeclaration, .paDataDeclaration, .paNetDeclAssignment,
  .paVariableDeclAssignment, .paContinuousAssign, .paNetAssignment, .paNetLvalue, .paVariableLvalue,
  .paInitialConstruct, .paAlwaysConstruct, .paAlwaysKeyword, .paAlways, .paAlwaysComb, .paAlwaysFf,
  .paAlwaysLatch, .paEventControl, .paEventExpression, .paEdgePosedge, .paEdgeNegedge,
  .paModuleInstantiation, .paParameterValueAssignment, .paOrderedParameterAssignment,
  .paNamedParameterAssignment, .paHierarchicalInstance, .paNameOfInstance, .paListOfPortConnections,
  .paOrderedPortConnection, .paNamedPortConnection, .paDotStar, .paGateInstantiation,
  .paNInputGateInstance, .paNInpGateAnd, .paNInpGateNand, .paNInpGateOr, .paNInpGateNor,
  .paNInpGateXor, .paNInpGateXnor, .paGenvarDeclaration, .paModportDeclaration, .paModportItem,
  .paModportPortsDeclaration, .paModportSimplePortsDeclaration, .paModportSimplePort,
  .paModportClockingDeclaration, .paClockingDeclaration, .paFunctionDeclaration, .paTaskDeclaration,
  .paGenerateRegion, .paGenerateBlock, .paGenerateBeginEndBlock, .paConditionalGenerateConstruct,
  .paIfGenerateConstruct, .paIf, .paElse, .paCaseGenerateConstruct, .paCaseGenerateItem,
  .paLoopGenerateConstruct, .paGenvarInitialization, .paGenvarDeclAssignment, .paGenvarIteration,
  .paSeqBlock, .paSystemTfCall, .paSystemTaskNames, .paListOfArguments, .paNonblockingAssignment,
  .paOperatorAssignment, .paConditionalStatement, .paSubroutineCallStatement,
  .paProceduralTimingControlStatement, .paDelayControl, .paCaseStatement, .paCaseItem,
  .paLoopStatement, .paForInitialization, .paForStep, .paPackageImportDeclaration, .paExpression,
  .paConstantExpression, .paPrimary, .paConstantPrimary, .paPrimaryLiteral, .paConcatenation,
  .paMultipleConcatenation, .paSelect, .paBitSelect, .paPartSelectRange, .paComplexFuncCall,
  .paStringValue, .paQmark, .paBinOpPlus, .paBinOpMinus, .paBinOpMult, .paBinOpDiv, .paBinOpPercent,
  .paBinOpMultMult, .paBinOpShiftLeft, .paBinOpShiftRight, .paBinOpArithShiftLeft,
  .paBinOpArithShiftRight, .paBinOpLess, .paBinOpLessEqual, .paBinOpGreat, .paBinOpGreatEqual,
  .paBinOpEquiv, .paBinOpNot, .paBinOpFourStateLogicEqual, .paBinOpFourStateLogicNotEqual,
  .paBinOpBitwAnd, .paBinOpBitwOr, .paBinOpBitwXor, .paBinOpBitwXnor, .paBinOpReductNand,
  .paBinOpReductNor, .paBinOpLogicAnd, .paBinOpLogicOr, .paUnaryPlus, .paUnaryMinus, .paUnaryNot,
  .paUnaryTilda, .paUnaryBitwAnd, .paUnaryBitwOr, .paUnaryBitwXor, .paUnaryReductNand,
  .paUnaryReductNor, .paUnaryReductXnor, .paAssignOpAssign, .paAssignOpAdd, .paAssignOpSub,
  .paAssignOpMult, .paAssignOpDiv, .paAssignOpModulo, .paAssignOpBitwAnd, .paAssignOpBitwOr,
  .paAssignOpBitwXor, .paAssignOpBitwLeftShift, .paAssignOpBitwRightShift,
  .paAssignOpArithShiftLeft, .paAssignOpArithShiftRight, .paIncDecPlusPlus, .paIncDecMinusMinus,
  .paOneLineComment, .paBlockComment, .paWhiteSpace]

/-- The kind with a given name. -/
def ofName? (s : String) : Option NodeKind := all.find? fun k => k.name == s

/-- A name with its underscores dropped and the letter after each made a capital. -/
def camelCase : List Char → List Char
  | [] => []
  | [c] => [c]
  | '_' :: c :: s => c.toUpper :: camelCase s
  | c :: s => c :: camelCase s

/-- The name of a kind as one capitalized word. -/
def variant : NodeKind → String
  | .paInterface => "PaInterface"
  | .paPrimitive => "PaPrimitive"
  | .paAlways => "PaAlways"
  | .paAlwaysComb => "PaAlwaysComb"
  | .paAlwaysFf => "PaAlwaysFf"
  | .paAlwaysLatch => "PaAlwaysLatch"
  | .paDotStar => "PaDotStar"
  | .paIf => "PaIf"
  | .paElse => "PaElse"
  | .paSystemTfCall => "PaSystemTfCall"
  | k => String.ofList (camelCase ('_' :: k.name.toList))

/-- Is the kind a production of the preprocessor? -/
def isPreprocessor (k : NodeKind) : Bool := k.name.toList.take 2 == ['p', 'p']

/-- Is the kind one that hangs off the tree without being part of its shape? -/
def isTrivia : NodeKind → Bool
  | .paOneLineComment | .paBlockComment | .paWhiteSpace | .slPreprocBegin | .slPreprocEnd => true
  | _ => false

/-- Is the kind a macro definition? -/
def isMacroDefinition : NodeKind → Bool
  | .ppSimpleNoArgsMacroDefinition | .ppSimpleArgsMacroDefinition
  | .ppMultilineNoArgsMacroDefinition | .ppMultilineArgsMacroDefinition => true
  | _ => false

/-- Is the kind the use of a macro? -/
def isMacroUse : NodeKind → Bool
  | .ppMacroInstanceWithArgs | .ppMacroInstanceNoArgs => true
  | _ => false

end NodeKind

end Verilog
